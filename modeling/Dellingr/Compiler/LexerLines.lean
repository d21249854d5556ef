import Dellingr.Compiler.Lexer
import Mathlib.Logic.Relation

/-!
# Lines

The lexer tracks line breaks as it moves: a break of two bytes is one, and breaks are taken
from the left (`breakEnds`). Every function of the lexer moves it byte by byte (`Moves`), so
that what one step keeps (`Tracked.advance`) holds wherever tokens, comments, long brackets
and strings divide the source:

* the line of a token and of a position is one more than the breaks before it (`line_tracking`);
* an error is on the line of a position that the lexer has passed (`Tracked.nextTokenLoop_error`).

A character that starts no token is the one thing the lexer moves past without a step; its line is
that of its first byte (`Tracked.invalidCharacter`).
-/

namespace Dellingr

open Patterns (ascii isAsciiDigit isLuaWhitespace)
open Numeral (FloatOps hexValue isNewlinePair)

namespace Lexer

/-! ## Line breaks -/

/-- A byte of a line break. -/
def isNewline (c : UInt8) : Bool := c == 13 || c == 10

/-- The end of each line break from a position on, breaks of two bytes taken from the left. -/
def breakEnds : Nat → List UInt8 → List Nat
  | _, [] => []
  | pos, [c] => if isNewline c then [pos + 1] else []
  | pos, c :: d :: rest =>
    if isNewlinePair c d then (pos + 2) :: breakEnds (pos + 2) rest
    else if isNewline c then (pos + 1) :: breakEnds (pos + 1) (d :: rest)
    else breakEnds (pos + 1) (d :: rest)

/-- The number of line breaks of a source that end at or before a position. -/
def breaksBefore (source : List UInt8) (pos : Nat) : Nat := (breakEnds 0 source).countP (· ≤ pos)

/-- The ends of the line breaks that are ahead of the cursor, the first of which may have been
    entered. -/
def upcoming (entered : Bool) (pos : Nat) (rest : List UInt8) : List Nat :=
  if entered then (pos + 1) :: breakEnds (pos + 1) rest.tail else breakEnds pos rest

section Breaks

variable {pos : Nat} {c : UInt8} {rest : List UInt8}

theorem isNewline_of_pair {d : UInt8} (h : isNewlinePair c d = true) :
    isNewline c = true ∧ isNewline d = true := by
  simp only [isNewlinePair, Bool.or_eq_true, Bool.and_eq_true, beq_iff_eq] at h
  rcases h with ⟨rfl, rfl⟩ | ⟨rfl, rfl⟩ <;> exact ⟨rfl, rfl⟩

theorem breakEnds_pair (hp : rest.head?.any (isNewlinePair c) = true) :
    breakEnds pos (c :: rest) = (pos + 2) :: breakEnds (pos + 2) rest.tail := by
  cases rest with
  | nil => cases hp
  | cons d rest =>
    have hp : isNewlinePair c d = true := hp
    rw [breakEnds, if_pos hp]
    rfl

theorem breakEnds_single (h : isNewline c = true) (hp : rest.head?.any (isNewlinePair c) = false) :
    breakEnds pos (c :: rest) = (pos + 1) :: breakEnds (pos + 1) rest := by
  cases rest with
  | nil => simp [breakEnds, h]
  | cons d rest =>
    have hp : ¬isNewlinePair c d = true := by simpa using hp
    rw [breakEnds, if_neg hp, if_pos h]

theorem breakEnds_byte (h : isNewline c = false) :
    breakEnds pos (c :: rest) = breakEnds (pos + 1) rest := by
  have hn : ¬isNewline c = true := by simp [h]
  cases rest with
  | nil => simp [breakEnds, h]
  | cons d rest =>
    have hp : ¬isNewlinePair c d = true := fun hp => hn (isNewline_of_pair hp).1
    rw [breakEnds, if_neg hp, if_neg hn]

/-- Line breaks ahead end after the cursor, one after the other. -/
theorem breakEnds_sorted (pos : Nat) (l : List UInt8) :
    (∀ b ∈ breakEnds pos l, pos < b) ∧ (breakEnds pos l).Pairwise (· < ·) := by
  have hcons : ∀ {p q : Nat} {ends : List Nat}, p < q →
      (∀ b ∈ ends, q < b) ∧ ends.Pairwise (· < ·) →
        (∀ b ∈ q :: ends, p < b) ∧ (q :: ends).Pairwise (· < ·) := by
    intro p q ends hpq h
    refine ⟨List.forall_mem_cons.2 ⟨hpq, fun b hb => ?_⟩, List.pairwise_cons.2 h⟩
    exact Nat.lt_trans hpq (h.1 b hb)
  induction pos, l using breakEnds.induct with
  | case1 pos => simp [breakEnds]
  | case2 pos c hc =>
    rw [breakEnds, if_pos hc]
    simp
  | case3 pos c hc =>
    rw [breakEnds, if_neg hc]
    simp
  | case4 pos c d rest hp ih =>
    rw [breakEnds, if_pos hp]
    exact hcons (by omega) ih
  | case5 pos c d rest hp hc ih =>
    rw [breakEnds, if_neg hp, if_pos hc]
    exact hcons (by omega) ih
  | case6 pos c d rest hp hc ih =>
    rw [breakEnds, if_neg hp, if_neg hc]
    exact ⟨fun b hb => Nat.lt_of_succ_lt (ih.1 b hb), ih.2⟩

theorem lt_of_mem_upcoming {entered : Bool} {b : Nat} (h : b ∈ upcoming entered pos rest) :
    pos < b := by
  rw [upcoming] at h
  split at h
  · rcases List.mem_cons.1 h with rfl | h
    · omega
    · have := (breakEnds_sorted _ _).1 b h
      omega
  · exact (breakEnds_sorted _ _).1 b h

end Breaks

/-! ## One step -/

/-- The lexer has recorded the line breaks up to its position. -/
structure Tracked (source : List UInt8) (l : Lexer) : Prop where
  source_eq : l.source = source
  recorded : ∃ ends, l.linebreaks = 0 :: ends ∧ (∀ b ∈ ends, b ≤ l.pos) ∧
    breakEnds 0 source = ends ++ upcoming l.newlinePairOpen l.pos l.rest
  entered : l.newlinePairOpen = true → ∃ c, l.rest.head? = some c ∧ isNewline c = true

section Step

variable {source : List UInt8} {l l' : Lexer} {c : UInt8}

theorem tracked_new (source : List UInt8) : Tracked source (new source) :=
  ⟨rfl, ⟨[], rfl, by simp, rfl⟩, fun h => absurd h Bool.false_ne_true⟩

theorem rest_of_peekChar (h : l.peekChar = some c) : ∃ t, l.rest = c :: t := by
  rw [peekChar_eq] at h
  cases hr : l.rest with
  | nil =>
    rw [hr] at h
    cases h
  | cons d t =>
    rw [hr] at h
    cases h
    exact ⟨t, rfl⟩

/-- A step past a byte keeps the record. -/
theorem Tracked.advance (h : Tracked source l) (hc : l.peekChar = some c) :
    Tracked source (l.advance c) := by
  obtain ⟨t, ht⟩ := rest_of_peekChar hc
  have hrest : (l.advance c).rest = t := rest_advance ht
  obtain ⟨ends, hlines, hle, hends⟩ := h.recorded
  rw [ht] at hends
  have hpeek : ({ l with pos := l.pos + 1 } : Lexer).peekChar = t.head? := by
    rw [peekChar_eq]
    congr 1
    have hdrop : l.source.drop (l.pos + 1) = (l.source.drop l.pos).drop 1 := by
      rw [List.drop_drop, Nat.add_comm]
    have hrest : l.source.drop l.pos = c :: t := ht
    show l.source.drop (l.pos + 1) = t
    rw [hdrop, hrest]
    rfl
  have hle' : ∀ b ∈ ends, b ≤ l.pos + 1 := fun b hb => Nat.le_succ_of_le (hle b hb)
  by_cases hn : isNewline c = true
  · have hbyte : (c == 13 || c == 10) = true := hn
    by_cases hpair : (!l.newlinePairOpen && t.head?.any (isNewlinePair c)) = true
    · -- The first byte of a break of two.
      obtain ⟨hopen, hp⟩ := Bool.and_eq_true_iff.1 hpair
      have hopen : l.newlinePairOpen = false := by simpa using hopen
      have hadv : l.advance c = { l with pos := l.pos + 1, newlinePairOpen := true } := by
        rw [Lexer.advance]
        simp only [hpeek]
        rw [if_pos hbyte, if_pos hpair]
      rw [hadv] at hrest ⊢
      refine ⟨h.source_eq, ⟨ends, hlines, hle', ?_⟩, fun _ => ?_⟩
      · rw [hends, hrest, upcoming, upcoming, hopen, if_neg Bool.false_ne_true, if_pos rfl,
          breakEnds_pair hp]
      · rw [hrest]
        cases hhead : t.head? with
        | none => simp [hhead] at hp
        | some d =>
          rw [hhead] at hp
          exact ⟨d, rfl, (isNewline_of_pair hp).2⟩
    · -- The end of a break.
      have hadv : l.advance c = { l with pos := l.pos + 1, newlinePairOpen := false
                                         linebreaks := l.linebreaks ++ [l.pos + 1] } := by
        rw [Lexer.advance]
        simp only [hpeek]
        rw [if_pos hbyte, if_neg hpair]
      rw [hadv] at hrest ⊢
      refine ⟨h.source_eq, ⟨ends ++ [l.pos + 1], ?_, ?_, ?_⟩,
        fun hopen => absurd hopen Bool.false_ne_true⟩
      · show l.linebreaks ++ [l.pos + 1] = _
        rw [hlines]
        rfl
      · intro b hb
        rcases List.mem_append.1 hb with hb | hb
        · exact hle' b hb
        · exact le_of_eq (List.mem_singleton.1 hb)
      · rw [hends, hrest, List.append_assoc]
        congr 1
        cases hopen : l.newlinePairOpen with
        | true => rfl
        | false =>
          have hp : t.head?.any (isNewlinePair c) = false := by simpa [hopen] using hpair
          exact breakEnds_single hn hp
  · -- No byte of a break, so none was entered.
    have hn : isNewline c = false := by simpa using hn
    have hopen : l.newlinePairOpen = false := by
      by_contra hopen
      obtain ⟨d, hd, hnd⟩ := h.entered (by simpa using hopen)
      rw [ht] at hd
      cases hd
      rw [hn] at hnd
      cases hnd
    have hadv : l.advance c = { l with pos := l.pos + 1 } := by
      rw [Lexer.advance]
      exact if_neg (by rw [show (c == 13 || c == 10) = false from hn]; exact Bool.false_ne_true)
    rw [hadv] at hrest ⊢
    refine ⟨h.source_eq, ⟨ends, hlines, hle', ?_⟩,
      fun hopen' => absurd (hopen.symm.trans hopen') Bool.false_ne_true⟩
    rw [hends, hrest]
    show ends ++ upcoming l.newlinePairOpen l.pos (c :: t) =
      ends ++ upcoming l.newlinePairOpen (l.pos + 1) t
    rw [hopen]
    exact congrArg _ (breakEnds_byte hn)

end Step

/-! ## All steps -/

/-- The lexer moved past a byte. -/
def Steps (l l' : Lexer) : Prop := ∃ c, l.peekChar = some c ∧ l' = l.advance c

/-- The lexer moved past bytes, one after the other. -/
abbrev Moves : Lexer → Lexer → Prop := Relation.ReflTransGen Steps

section Moves

variable {source : List UInt8} {l l' : Lexer} {c : UInt8}

theorem Tracked.moves (h : Tracked source l) (hm : Moves l l') : Tracked source l' := by
  induction hm with
  | refl => exact h
  | tail _ hstep ih =>
    obtain ⟨c, hc, rfl⟩ := hstep
    exact ih.advance hc

theorem moves_advance (h : l.peekChar = some c) : Moves l (l.advance c) := .single ⟨c, h, rfl⟩

theorem moves_nextChar (h : l.nextChar = some (c, l')) : Moves l l' := by
  rw [nextChar, Option.map_eq_some_iff] at h
  obtain ⟨d, hd, heq⟩ := h
  cases heq
  exact moves_advance hd

theorem moves_skipWhile (p : UInt8 → Bool) (fuel : Nat) (l : Lexer) :
    Moves l (skipWhile p fuel l) := by
  induction fuel generalizing l with
  | zero => exact .refl
  | succ fuel ih =>
    rw [skipWhile]
    split
    · rename_i c hc
      split
      · exact (moves_advance hc).trans (ih _)
      · exact .refl
    · exact .refl

theorem moves_consumeWhitespace (l : Lexer) : Moves l l.consumeWhitespace := moves_skipWhile _ _ _

theorem moves_tryNext (l : Lexer) (expected : UInt8) : Moves l (l.tryNext expected).2 := by
  rw [tryNext]
  split
  · rename_i c hc
    split
    · exact moves_advance hc
    · exact .refl
  · exact .refl

theorem moves_of_tryNext {b : Bool} {expected : UInt8} (h : l.tryNext expected = (b, l')) :
    Moves l l' := by
  have := moves_tryNext l expected
  rwa [h] at this

theorem moves_countEquals (fuel : Nat) (l : Lexer) (level : Nat) :
    Moves l (countEquals fuel l level).2 := by
  induction fuel generalizing l level with
  | zero => exact .refl
  | succ fuel ih =>
    rw [countEquals]
    split
    · rename_i l₁ h
      exact (moves_of_tryNext h).trans (ih _ _)
    · rename_i l₁ h
      exact moves_of_tryNext h

theorem moves_skipLongComment {level start fuel : Nat}
    (h : skipLongComment level start fuel l = .ok l') : Moves l l' := by
  induction fuel generalizing l with
  | zero => cases h
  | succ fuel ih =>
    rw [skipLongComment] at h
    split at h
    · rename_i c l₁ hnext
      have hmove := moves_nextChar hnext
      split at h
      · have hcount := moves_countEquals l₁.remaining l₁ 0
        simp only at h
        split at h
        · rename_i l₂ hclose
          cases h
          exact hmove.trans (hcount.trans (moves_of_tryNext hclose))
        · exact hmove.trans (hcount.trans (ih h))
      · exact hmove.trans (ih h)
    · cases h

theorem moves_skipLine (fuel : Nat) (l : Lexer) : Moves l (skipLine fuel l) := by
  induction fuel generalizing l with
  | zero => exact .refl
  | succ fuel ih =>
    rw [skipLine]
    split
    · rename_i c l₁ hnext
      split
      · exact moves_nextChar hnext
      · exact (moves_nextChar hnext).trans (ih _)
    · exact .refl

theorem moves_skipComment {start : Nat} (h : l.skipComment start = .ok l') : Moves l l' := by
  rw [skipComment] at h
  split at h
  · rename_i hopen
    have hcount := (moves_advance hopen).trans
      (moves_countEquals (l.advance (ascii '[')).remaining (l.advance (ascii '[')) 0)
    simp only at h
    split at h
    · rename_i l₁ hbracket
      exact hcount.trans ((moves_of_tryNext hbracket).trans (moves_skipLongComment h))
    · rename_i l₁ hbracket
      cases h
      exact hcount.trans ((moves_of_tryNext hbracket).trans (moves_skipLine _ _))
  · cases h
    exact moves_skipLine _ _

theorem moves_lexDots (l : Lexer) : Moves l l.lexDots.2 := by
  rw [lexDots]
  split
  · rename_i h
    exact moves_of_tryNext h
  · rename_i h
    split
    · rename_i h'
      exact (moves_of_tryNext h).trans (moves_of_tryNext h')
    · rename_i h'
      exact (moves_of_tryNext h).trans (moves_of_tryNext h')

theorem moves_withEquals (l : Lexer) (paired alone : TokenKind) :
    Moves l (l.withEquals paired alone).2 := by
  rw [withEquals]
  split
  · rename_i h
    exact moves_of_tryNext h
  · rename_i h
    exact moves_of_tryNext h

theorem moves_lexWord (l : Lexer) (start : Nat) : Moves l (l.lexWord start).2 :=
  moves_skipWhile _ _ _

/-- The whitespace or the second byte of a line break after an escape. -/
theorem moves_escape (l : Lexer) (escaped : UInt8) :
    Moves l (if escaped == ascii 'z' then l.consumeWhitespace
      else if (escaped == 13 || escaped == 10) && l.peekChar.any (isNewlinePair escaped) then
        (l.nextChar.map Prod.snd).getD l
      else l) := by
  split
  · exact moves_consumeWhitespace l
  · split
    · cases hnext : l.nextChar with
      | none => exact .refl
      | some r => exact moves_nextChar hnext
    · exact .refl

theorem moves_lexStringLoop {quote : UInt8} {fuel skip : Nat} {decoded : List UInt8}
    {failure : Option EscapeError} {contents : Except EscapeError (List UInt8)}
    (h : lexStringLoop quote fuel l decoded failure skip = .ok (contents, l')) : Moves l l' := by
  induction fuel generalizing l decoded failure skip with
  | zero => cases h
  | succ fuel ih =>
    rw [lexStringLoop.eq_def] at h
    simp only at h
    split at h
    · cases h
    · rename_i c l₁ hnext
      have hmove := moves_nextChar hnext
      split at h
      · cases h
        exact hmove
      · split at h
        · split at h
          · cases h
          · rename_i escaped l₂ hnext'
            have hmove' := hmove.trans ((moves_nextChar hnext').trans (moves_escape l₂ escaped))
            split at h
            · exact hmove'.trans (ih h)
            · split at h
              · exact hmove'.trans (ih h)
              · exact hmove'.trans (ih h)
        · split at h
          · cases h
          · exact hmove.trans (ih h)

theorem moves_skipNumeral (lower upper : UInt8) (fuel : Nat) (l : Lexer) :
    Moves l (skipNumeral lower upper fuel l) := by
  induction fuel generalizing l with
  | zero => exact .refl
  | succ fuel ih =>
    rw [skipNumeral]
    split
    · exact .refl
    · rename_i c hc
      have hmove := moves_advance hc
      split
      · have hplus := moves_tryNext (l.advance c) (ascii '+')
        simp only
        refine hmove.trans (hplus.trans ?_)
        split
        · exact ih _
        · exact (moves_tryNext _ _).trans (ih _)
      · split
        · exact hmove.trans (ih _)
        · exact .refl

theorem moves_digits (hex : Bool) (l : Lexer) :
    Moves l (if hex then skipNumeral (ascii 'p') (ascii 'P') l.remaining l
      else skipNumeral (ascii 'e') (ascii 'E') l.remaining l) := by
  cases hex <;> exact moves_skipNumeral _ _ _ _

/-- A numeral is read, or there is an error where it starts. -/
theorem lexNumeral_spec (ops : FloatOps) (l : Lexer) (c : UInt8) (start : Nat) : ∃ l₁, Moves l l₁ ∧
    ((∃ value, l.lexNumeral ops c start = .ok (value, l₁)) ∨
      ∃ kind, l.lexNumeral ops c start = .error (l₁.errorAt kind start)) := by
  apply Exists.intro
  refine ⟨?moves, ?result⟩
  case result =>
    rw [lexNumeral]
    dsimp only
    split
    · exact .inl ⟨_, rfl⟩
    · exact .inr ⟨_, rfl⟩
  refine Relation.ReflTransGen.trans (b := ?spanned) ?span ?glued
  case glued =>
    split
    · rename_i d hd
      split
      · exact moves_advance hd
      · exact .refl
    · exact .refl
  refine Relation.ReflTransGen.trans (b := ?begun) ?radix ?digits
  case digits => exact moves_digits _ _
  split
  · split
    · rename_i hx
      exact moves_of_tryNext hx
    · rename_i hx
      exact (moves_of_tryNext hx).trans (moves_tryNext _ _)
  · exact .refl

end Moves

/-! ## Lines -/

section Lines

variable {source : List UInt8} {l l' : Lexer} {pos : Nat}

/-- The breaks before a position that was reached are recorded. -/
theorem Tracked.breaksBefore_eq (h : Tracked source l) (hpos : pos ≤ l.pos) : ∃ ends,
    l.linebreaks = 0 :: ends ∧ breaksBefore source pos = ends.countP (· ≤ pos) ∧
      (∀ b ∈ ends, b ≤ l.pos) ∧ ends.Pairwise (· < ·) := by
  obtain ⟨ends, hlines, hle, hends⟩ := h.recorded
  have hsorted := (breakEnds_sorted 0 source).2
  rw [hends] at hsorted
  have hahead : (upcoming l.newlinePairOpen l.pos l.rest).countP (· ≤ pos) = 0 := by
    refine List.countP_eq_zero.2 fun b hb => ?_
    have := lt_of_mem_upcoming hb
    simp
    omega
  refine ⟨ends, hlines, ?_, hle, (List.pairwise_append.1 hsorted).1⟩
  rw [breaksBefore, hends, List.countP_append, hahead, Nat.add_zero]

/-- In a sorted list the numbers up to a bound come first. -/
theorem length_takeWhile_eq_countP {ends : List Nat} (h : ends.Pairwise (· < ·)) :
    (ends.takeWhile (· ≤ pos)).length = ends.countP (· ≤ pos) := by
  induction ends with
  | nil => rfl
  | cons b ends ih =>
    obtain ⟨hhead, htail⟩ := List.pairwise_cons.1 h
    by_cases hb : b ≤ pos
    · rw [List.takeWhile_cons_of_pos (by simpa using hb),
        List.countP_cons_of_pos (by simpa using hb),
        List.length_cons, ih htail]
    · have hzero : ends.countP (· ≤ pos) = 0 := by
        refine List.countP_eq_zero.2 fun b' hb' => ?_
        have := hhead b' hb'
        simp
        omega
      rw [List.takeWhile_cons_of_neg (by simpa using hb),
        List.countP_cons_of_neg (by simpa using hb), hzero]
      rfl

theorem Tracked.lineAndCol (h : Tracked source l) (hpos : pos ≤ l.pos) :
    (l.lineAndCol pos).1 = 1 + breaksBefore source pos := by
  obtain ⟨ends, hlines, hbreaks, -, hsorted⟩ := h.breaksBefore_eq hpos
  rw [Lexer.lineAndCol, hlines, hbreaks, ← length_takeWhile_eq_countP hsorted,
    List.takeWhile_cons_of_pos (by simp)]
  simp [Nat.add_comm]

theorem Tracked.length_linebreaks (h : Tracked source l) :
    l.linebreaks.length = 1 + breaksBefore source l.pos := by
  obtain ⟨ends, hlines, hbreaks, hle, -⟩ := h.breaksBefore_eq (Nat.le_refl l.pos)
  have hall : ends.countP (· ≤ l.pos) = ends.length := by
    refine List.countP_eq_length.2 fun b hb => ?_
    simpa using hle b hb
  rw [hlines, hbreaks, hall, List.length_cons, Nat.add_comm]

theorem le_of_moves (h : Moves l l') : l.pos ≤ l'.pos := by
  induction h with
  | refl => exact Nat.le_refl _
  | tail _ hstep ih =>
    obtain ⟨c, -, rfl⟩ := hstep
    rw [pos_advance]
    exact Nat.le_succ_of_le ih

/-- An error on the line of a position that the lexer has passed. -/
def ErrsOn (source : List UInt8) (l : Lexer) (e : LexError) : Prop :=
  ∃ l₁, Moves l l₁ ∧ ∃ pos ≤ l₁.pos, e.line = 1 + breaksBefore source pos

variable {e : LexError} {kind : SyntaxError} {start fuel : Nat}

theorem ErrsOn.of_moves (h : ErrsOn source l' e) (hm : Moves l l') : ErrsOn source l e := by
  obtain ⟨l₁, hm₁, herr⟩ := h
  exact ⟨l₁, hm.trans hm₁, herr⟩

theorem Tracked.errsOn (h : Tracked source l) (hm : Moves l l') (hpos : pos ≤ l'.pos) :
    ErrsOn source l (l'.errorAt kind pos) :=
  ⟨l', hm, pos, hpos, (h.moves hm).lineAndCol hpos⟩

theorem Tracked.skipLongComment {level : Nat} (ht : Tracked source l) (hs : start ≤ l.pos)
    (h : Lexer.skipLongComment level start fuel l = .error e) : ErrsOn source l e := by
  induction fuel generalizing l with
  | zero =>
    cases h
    exact ht.errsOn .refl hs
  | succ fuel ih =>
    rw [Lexer.skipLongComment] at h
    split at h
    · rename_i c l₁ hnext
      have hmove := moves_nextChar hnext
      split at h
      · have hcount := hmove.trans (moves_countEquals l₁.remaining l₁ 0)
        simp only at h
        split at h
        · cases h
        · exact (ih (ht.moves hcount) (hs.trans (le_of_moves hcount)) h).of_moves hcount
      · exact (ih (ht.moves hmove) (hs.trans (le_of_moves hmove)) h).of_moves hmove
    · cases h
      exact ht.errsOn .refl hs

theorem Tracked.skipComment (ht : Tracked source l) (hs : start ≤ l.pos)
    (h : l.skipComment start = .error e) : ErrsOn source l e := by
  rw [Lexer.skipComment] at h
  split at h
  · rename_i hopen
    have hcount := (moves_advance hopen).trans
      (moves_countEquals (l.advance (ascii '[')).remaining (l.advance (ascii '[')) 0)
    simp only at h
    split at h
    · rename_i l₁ hbracket
      have hmove := hcount.trans (moves_of_tryNext hbracket)
      exact ((ht.moves hmove).skipLongComment (hs.trans (le_of_moves hmove)) h).of_moves hmove
    · cases h
  · cases h

theorem Tracked.lexStringLoop {quote : UInt8} {skip : Nat} {decoded : List UInt8}
    {failure : Option EscapeError} (ht : Tracked source l)
    (h : Lexer.lexStringLoop quote fuel l decoded failure skip = .error e) : ErrsOn source l e := by
  induction fuel generalizing l decoded failure skip with
  | zero =>
    cases h
    exact ht.errsOn .refl (Nat.le_refl _)
  | succ fuel ih =>
    rw [Lexer.lexStringLoop.eq_def] at h
    simp only at h
    split at h
    · cases h
      exact ht.errsOn .refl (Nat.le_refl _)
    · rename_i c l₁ hnext
      have hmove := moves_nextChar hnext
      split at h
      · cases h
      · split at h
        · split at h
          · cases h
            exact ht.errsOn hmove (Nat.le_refl _)
          · rename_i escaped l₂ hnext'
            have hmove' := hmove.trans ((moves_nextChar hnext').trans (moves_escape l₂ escaped))
            split at h
            · exact (ih (ht.moves hmove') h).of_moves hmove'
            · split at h
              · exact (ih (ht.moves hmove') h).of_moves hmove'
              · exact (ih (ht.moves hmove') h).of_moves hmove'
        · split at h
          · cases h
            exact ht.errsOn hmove (le_of_moves hmove)
          · exact (ih (ht.moves hmove) h).of_moves hmove

/-- An invalid character is on the line of its first byte. -/
theorem Tracked.invalidCharacter {first : UInt8} (ht : Tracked source l) (hs : l.pos ≤ start + 1) :
    ErrsOn source l (l.invalidCharacter first start) := by
  rw [Lexer.invalidCharacter]
  split
  · exact ht.errsOn .refl (Nat.le_refl _)
  · split
    · rename_i c _
      refine ⟨l, .refl, l.pos, Nat.le_refl _, ?_⟩
      have hsize : l.pos ≤ start + c.utf8Size := hs.trans (Nat.add_le_add_left c.utf8Size_pos start)
      rw [← ht.lineAndCol (Nat.le_refl _)]
      obtain ⟨ends, hlines, -, hle, -⟩ := ht.breaksBefore_eq (Nat.le_refl l.pos)
      have htake : ∀ q, l.pos ≤ q →
          (l.linebreaks.takeWhile (· ≤ q)).length = l.linebreaks.length := by
        intro q hq
        rw [hlines, List.takeWhile_eq_self_iff.2]
        intro b hb
        rcases List.mem_cons.1 hb with rfl | hb
        · simp
        · simpa using (hle b hb).trans hq
      show (l.linebreaks.takeWhile (· ≤ start + c.utf8Size)).length - 1 + 1 =
        (l.linebreaks.takeWhile (· ≤ l.pos)).length - 1 + 1
      rw [htake _ hsize, htake _ (Nat.le_refl _)]
    · exact ht.errsOn .refl (Nat.le_refl _)

end Lines

/-! ## Tokens -/

/-- A token that was read starts where and on the line it is said to. -/
def StartsAt (start line : Nat) (r : Option (Token × Option Literal)) : Prop :=
  ∀ lexed, r = some lexed → lexed.1.start = start ∧ lexed.1.line = line

/-- What is read of a token from a lexer: the token, with where the lexer moved, or an error. -/
structure TokenRead (source : List UInt8) (l : Lexer) (start line : Nat)
    (r : Except LexError (Option (Token × Option Literal) × Lexer)) : Prop where
  startsAt : ∀ lexed l', r = .ok (lexed, l') → Moves l l' ∧ StartsAt start line lexed
  errsOn : ∀ e, r = .error e → ErrsOn source l e

section Tokens

variable {source : List UInt8} {l l' : Lexer} {c : UInt8} {start line : Nat} {ops : FloatOps}

theorem TokenRead.token {kind : TokenKind} {literal : Option Literal} (hm : Moves l l') :
    TokenRead source l start line (.ok (some (l'.token kind start line, literal), l')) := by
  refine ⟨fun lexed l₁ h => ?_, fun e h => ?_⟩
  · cases h
    refine ⟨hm, fun lexed h => ?_⟩
    cases h
    exact ⟨rfl, rfl⟩
  · cases h

theorem TokenRead.comment (hm : Moves l l') : TokenRead source l start line (.ok (none, l')) := by
  refine ⟨fun lexed l₁ h => ?_, fun e h => ?_⟩
  · cases h
    refine ⟨hm, fun lexed h => ?_⟩
    cases h
  · cases h

theorem TokenRead.error {e : LexError} (h : ErrsOn source l e) :
    TokenRead source l start line (.error e) := by
  refine ⟨fun lexed l₁ h' => ?_, fun e' h' => ?_⟩
  · cases h'
  · cases h'
    exact h

theorem Tracked.number (ht : Tracked source l) (hs : start ≤ l.pos) :
    TokenRead source l start line (l.lexNumeral ops c start >>= fun r =>
      pure (some (r.2.literalToken (.number r.1) start line), r.2)) := by
  obtain ⟨l₁, hm, ⟨value, hr⟩ | ⟨kind, hr⟩⟩ := lexNumeral_spec ops l c start
  · rw [hr]
    exact .token hm
  · rw [hr]
    exact .error (ht.errsOn hm (hs.trans (le_of_moves hm)))

/-- One case for each kind of token: `l` is past the first byte. -/
theorem Tracked.lexToken (ht : Tracked source l) (hs : start + 1 = l.pos) :
    TokenRead source l start line (l.lexToken ops c start line) := by
  have hle : start ≤ l.pos := by omega
  rw [Lexer.lexToken]
  cases hsimple : simpleToken c with
  | some kind => exact .token .refl
  | none =>
    dsimp only
    by_cases hdot : (c == ascii '.') = true
    · rw [if_pos hdot]
      by_cases hdigit : l.peekChar.any isAsciiDigit = true
      · rw [if_pos hdigit]
        exact ht.number hle
      · rw [if_neg hdigit]
        exact .token (moves_lexDots l)
    rw [if_neg hdot]
    by_cases hequal : (c == ascii '=') = true
    · rw [if_pos hequal]
      exact .token (moves_withEquals l _ _)
    rw [if_neg hequal]
    by_cases hless : (c == ascii '<') = true
    · rw [if_pos hless]
      exact .token (moves_withEquals l _ _)
    rw [if_neg hless]
    by_cases hgreater : (c == ascii '>') = true
    · rw [if_pos hgreater]
      exact .token (moves_withEquals l _ _)
    rw [if_neg hgreater]
    by_cases htilde : (c == ascii '~') = true
    · rw [if_pos htilde]
      split
      · rename_i hpaired
        exact .token (moves_of_tryNext hpaired)
      · rename_i halone
        exact .error (ht.errsOn (moves_of_tryNext halone) (Nat.le_refl _))
    rw [if_neg htilde]
    by_cases hdash : (c == ascii '-') = true
    · rw [if_pos hdash]
      split
      · rename_i l₁ hdashes
        have hmove := moves_of_tryNext hdashes
        cases hc : l₁.skipComment start with
        | error e =>
          have herr := (ht.moves hmove).skipComment (hle.trans (le_of_moves hmove)) hc
          exact .error (herr.of_moves hmove)
        | ok l₂ => exact .comment (hmove.trans (moves_skipComment hc))
      · rename_i l₁ hminus
        exact .token (moves_of_tryNext hminus)
    rw [if_neg hdash]
    by_cases hquote : (c == ascii '\'' || c == ascii '"') = true
    · rw [if_pos hquote]
      cases hstring : l.lexString c with
      | error e => exact .error (ht.lexStringLoop hstring)
      | ok r => exact .token (moves_lexStringLoop hstring)
    rw [if_neg hquote]
    by_cases hsquare : (c == ascii '[') = true
    · rw [if_pos hsquare]
      split
      · exact .error (ht.errsOn .refl hle)
      · exact .token .refl
    rw [if_neg hsquare]
    by_cases hdigit : isAsciiDigit c = true
    · rw [if_pos hdigit]
      exact ht.number hle
    rw [if_neg hdigit]
    split
    · have hword := moves_lexWord l start
      split
      · rename_i l₁ hgoto
        rw [hgoto] at hword
        exact .error (ht.errsOn hword (hle.trans (le_of_moves hword)))
      · exact .token hword
    · exact .error (ht.invalidCharacter (Nat.le_of_eq hs.symm))

/-- The first byte of a token after whitespace. -/
theorem tokenRead_of_first {l₂ : Lexer} (ht : Tracked source l)
    (hfirst : l.consumeWhitespace.nextChar = some (c, l₂)) : Moves l l₂ ∧
      TokenRead source l₂ l.consumeWhitespace.pos line
        (l₂.lexToken ops c l.consumeWhitespace.pos line) := by
  have hmove := (moves_consumeWhitespace l).trans (moves_nextChar hfirst)
  refine ⟨hmove, (ht.moves hmove).lexToken ?_⟩
  rw [nextChar, Option.map_eq_some_iff] at hfirst
  obtain ⟨d, -, heq⟩ := hfirst
  cases heq
  exact pos_advance.symm

/-- A token starts where the lexer was after whitespace and comments. -/
theorem Tracked.nextTokenLoop {fuel : Nat} {lexed : Token × Option Literal} (ht : Tracked source l)
    (h : Lexer.nextTokenLoop ops fuel l = .ok (lexed, l')) : ∃ l₁, Moves l l₁ ∧ Moves l₁ l' ∧
      lexed.1.start = l₁.pos ∧ lexed.1.line = l₁.linebreaks.length := by
  induction fuel generalizing l with
  | zero =>
    cases h
    exact ⟨l', .refl, .refl, rfl, rfl⟩
  | succ fuel ih =>
    rw [Lexer.nextTokenLoop] at h
    have hspace := moves_consumeWhitespace l
    split at h
    · cases h
      exact ⟨_, hspace, .refl, rfl, rfl⟩
    · rename_i first l₂ hfirst
      obtain ⟨hmove, hread⟩ := tokenRead_of_first ht hfirst
      split at h
      · cases h
      · rename_i lexed' l₃ hlexed
        cases h
        obtain ⟨hm, hstart⟩ := hread.startsAt _ _ hlexed
        obtain ⟨hs, hl⟩ := hstart _ rfl
        exact ⟨_, hspace, (moves_nextChar hfirst).trans hm, hs, hl⟩
      · rename_i l₃ hcomment
        obtain ⟨hm, -⟩ := hread.startsAt _ _ hcomment
        have hmove := hmove.trans hm
        obtain ⟨l₁, hm₁, hm₂, hs, hl⟩ := ih (ht.moves hmove) h
        exact ⟨l₁, hmove.trans hm₁, hm₂, hs, hl⟩

theorem Tracked.nextTokenLoop_error {fuel : Nat} {e : LexError} (ht : Tracked source l)
    (h : Lexer.nextTokenLoop ops fuel l = .error e) : ErrsOn source l e := by
  induction fuel generalizing l with
  | zero => cases h
  | succ fuel ih =>
    rw [Lexer.nextTokenLoop] at h
    split at h
    · cases h
    · rename_i first l₂ hfirst
      obtain ⟨hmove, hread⟩ := tokenRead_of_first ht hfirst
      split at h
      · rename_i e' herror
        cases h
        exact (hread.errsOn _ herror).of_moves hmove
      · cases h
      · rename_i l₃ hcomment
        have hmove := hmove.trans (hread.startsAt _ _ hcomment).1
        exact (ih (ht.moves hmove) h).of_moves hmove

end Tokens

/-- The lexer after some tokens of a source. -/
inductive AfterTokens (ops : FloatOps) (source : List UInt8) : Lexer → Prop
  | new : AfterTokens ops source (new source)
  | next {l l' : Lexer} {lexed : Token × Option Literal} (hl : AfterTokens ops source l)
      (hnext : l.nextToken ops = .ok (lexed, l')) : AfterTokens ops source l'

theorem AfterTokens.moves {ops : FloatOps} {source : List UInt8} {l : Lexer}
    (h : AfterTokens ops source l) : Moves (Lexer.new source) l := by
  induction h with
  | new => exact .refl
  | next _ hnext ih =>
    obtain ⟨l₁, hm, hm', -⟩ := ((tracked_new source).moves ih).nextTokenLoop hnext
    exact ih.trans (hm.trans hm')

/-- Wherever tokens divide a source, each token is on the line after the breaks before it, and so
    is every position that the lexer has passed, after a token or in the middle of one, and every
    error. -/
theorem line_tracking (ops : FloatOps) (source : List UInt8) :
    (∀ l lexed l', AfterTokens ops source l → l.nextToken ops = .ok (lexed, l') →
      lexed.1.line = 1 + breaksBefore source lexed.1.start) ∧
    (∀ l pos, AfterTokens ops source l → pos ≤ l.pos →
      (l.lineAndCol pos).1 = 1 + breaksBefore source pos) ∧
    (∀ l pos, Moves (new source) l → pos ≤ l.pos →
      (l.lineAndCol pos).1 = 1 + breaksBefore source pos) ∧
    ∀ l e, AfterTokens ops source l → l.nextToken ops = .error e → ErrsOn source l e := by
  have htracked : ∀ {l : Lexer}, Moves (new source) l → Tracked source l :=
    (tracked_new source).moves
  refine ⟨fun l lexed l' hl hnext => ?_, fun l pos hl hpos => (htracked hl.moves).lineAndCol hpos,
    fun l pos hm hpos => (htracked hm).lineAndCol hpos,
    fun l e hl hnext => (htracked hl.moves).nextTokenLoop_error hnext⟩
  obtain ⟨l₁, hm, -, hstart, hline⟩ := (htracked hl.moves).nextTokenLoop hnext
  rw [hstart, hline]
  exact (htracked (hl.moves.trans hm)).length_linebreaks

/-- A comment ends inside a break of two bytes, which is still one: the name after it is on the
    second line. -/
theorem line_tracking_comment : ∃ lexed l',
    (new [45, 45, 13, 10, 97]).nextToken ⟨fun _ => none, fun x _ => x⟩ = .ok (lexed, l') ∧
      lexed.1.line = 1 + breaksBefore [45, 45, 13, 10, 97] lexed.1.start ∧ lexed.1.line = 2 := by
  have hnext : (new [45, 45, 13, 10, 97]).nextToken ⟨fun _ => none, fun x _ => x⟩ =
      .ok ((⟨.identifier, 4, 1, 2⟩, none), ⟨5, [0, 4], false, [45, 45, 13, 10, 97]⟩) := by
    decide +kernel
  exact ⟨_, _, hnext, (line_tracking _ _).1 _ _ _ .new hnext, rfl⟩

end Lexer

end Dellingr
