import Dellingr.Patterns.ReferenceSearch

/-!
# The loop over the matches of a pattern

`string.gsub` of Lua 5.4 goes through the subject position by position: where the pattern matches,
the match is replaced, and elsewhere a byte is copied (`gsubLoop`). A match that ends where the last
one ended is empty, and is not replaced. The steps of the loop are pieces of the subject to copy and
matches to replace; there are no more of them than twice the bytes of the subject
(`exists_gsubPieces`).

This implementation searches for the next match instead. What it finds, a loop over the positions
would find after copying the bytes before the match (`gsubLoop_found`).
-/

namespace Dellingr.Patterns

open Effect

namespace Reference

/-! ## Where matches end -/

section Ahead

variable {lone : UInt8 → Bool} {subject : List UInt8} {k : Nat → Result} {r : Result} {lo s : Nat}

/-- A match ends within the subject, from a position on. -/
def Ahead (subject : List UInt8) (lo : Nat) (r : Result) : Prop :=
  ∀ stop caps, r = .ok (some (stop, caps)) → lo ≤ stop ∧ stop ≤ subject.length

theorem ahead_none : Ahead subject lo (.ok none) := nofun

theorem ahead_error (e : PatternError) : Ahead subject lo (.error e) := nofun

theorem Ahead.mono {lo' : Nat} (h : Ahead subject lo r) (hlo : lo' ≤ lo) : Ahead subject lo' r :=
  fun stop caps hr => ⟨Nat.le_trans hlo (h stop caps hr).1, (h stop caps hr).2⟩

/-- Where the first try fails, the second one decides. -/
theorem Ahead.orElse {r' : Result} :
    Ahead subject lo r → Ahead subject lo r' →
      Ahead subject lo (match r with | .ok none => r' | r => r) := by
  intro h h'
  rcases r with e | _ | ⟨stop, caps⟩
  · exact h
  · exact h'
  · exact h

theorem ahead_giveBack {n : Nat} (hk : ∀ pos, s ≤ pos → pos ≤ subject.length → Ahead subject pos (k pos))
    (hn : s + n ≤ subject.length) : Ahead subject s (giveBack k s n) := by
  induction n with
  | zero => exact hk s (Nat.le_refl _) hn
  | succ n ih =>
    rw [giveBack]
    exact ((hk (s + n + 1) (by omega) hn).mono (by omega)).orElse (ih (by omega))

theorem ahead_maxExpand {test : UInt8 → Bool}
    (hk : ∀ pos, s ≤ pos → pos ≤ subject.length → Ahead subject pos (k pos)) (hs : s ≤ subject.length) :
    Ahead subject s (maxExpand subject test k s) := by
  refine ahead_giveBack hk ?_
  have := (List.takeWhile_prefix test (l := subject.drop s)).length_le
  rw [List.length_drop] at this
  omega

theorem ahead_minLoop {test : UInt8 → Bool} {bytes : List UInt8}
    (hk : ∀ pos, s ≤ pos → pos ≤ subject.length → Ahead subject pos (k pos))
    (hs : s + bytes.length ≤ subject.length) : Ahead subject s (minLoop test k bytes s) := by
  induction bytes generalizing s with
  | nil => exact hk s (Nat.le_refl _) hs
  | cons b bytes ih =>
    rw [List.length_cons] at hs
    rw [minLoop]
    refine (hk s (Nat.le_refl _) (by omega)).orElse ?_
    split
    · exact (ih (fun pos hpos => hk pos (by omega)) (by omega)).mono (Nat.le_succ s)
    · exact ahead_none

theorem ahead_matchDefault {byte : UInt8} {rest : List UInt8} {k : List UInt8 → Nat → Result}
    (hk : ∀ text pos, s ≤ pos → pos ≤ subject.length → Ahead subject pos (k text pos))
    (hs : s ≤ subject.length) : Ahead subject s (matchDefault lone subject byte rest s k) := by
  have hhere : ∀ text, Ahead subject s (k text s) := fun text => hk text s (Nat.le_refl _) hs
  rw [matchDefault]
  split
  · exact ahead_error _
  · rename_i test ep hitem
    split
    · rename_i hbyte
      have hlt : s < subject.length := by
        by_contra hge
        rw [List.getElem?_eq_none (Nat.le_of_not_lt hge)] at hbyte
        cases hbyte
      have hnext : ∀ text, Ahead subject s (k text (s + 1)) := fun text =>
        (hk text (s + 1) (Nat.le_succ s) hlt).mono (Nat.le_succ s)
      split
      · exact (hnext _).orElse (hhere _)
      split
      · exact (ahead_maxExpand (fun pos hpos => hk _ pos (by omega)) hlt).mono (Nat.le_succ s)
      split
      · exact ahead_maxExpand (hk _) hs
      split
      · exact ahead_minLoop (hk _) (by rw [List.length_drop]; omega)
      · exact hnext _
    · split
      · exact hhere _
      · exact ahead_none

theorem balanceLoop_ahead {opening closing : UInt8} {bytes : List UInt8} {depth stop : Nat}
    (h : balanceLoop opening closing bytes depth s = some stop) : s ≤ stop ∧ stop ≤ s + bytes.length := by
  induction bytes generalizing depth s with
  | nil => cases h
  | cons b bytes ih =>
    rw [balanceLoop] at h
    rw [List.length_cons]
    split at h
    · split at h
      · cases h
        omega
      · have := ih h
        omega
    · split at h
      · have := ih h
        omega
      · have := ih h
        omega

theorem matchBalance_ahead {opening closing : UInt8} {stop : Nat}
    (h : matchBalance subject opening closing s = some stop) : s ≤ stop ∧ stop ≤ subject.length := by
  rw [matchBalance] at h
  split at h
  · rename_i hopen
    obtain ⟨hlt, -⟩ := List.getElem?_eq_some_iff.1 hopen
    have := balanceLoop_ahead h
    rw [List.length_drop] at this
    omega
  · cases h

theorem matchCapture_ahead {capture : Capture} {stop : Nat} (hs : s ≤ subject.length)
    (h : matchCapture subject capture s = some stop) : s ≤ stop ∧ stop ≤ subject.length := by
  rw [matchCapture] at h
  split at h
  · split at h
    · rename_i n hn hcopy
      cases h
      omega
    · cases h
  · cases h

/-- A match ends after its start, within the subject. -/
theorem doMatch_ahead {fuel : Nat} {p : List UInt8} {caps : List Capture} (hs : s ≤ subject.length) :
    Ahead subject s (doMatch lone subject fuel p s caps) := by
  induction fuel generalizing p s caps with
  | zero =>
    cases p with
    | nil =>
      rintro stop caps' h
      cases h
      exact ⟨Nat.le_refl _, hs⟩
    | cons byte rest => exact ahead_none
  | succ fuel ih =>
    have hstep : ∀ {stop : Nat} {p caps}, s ≤ stop ∧ stop ≤ subject.length →
        Ahead subject s (doMatch lone subject fuel p stop caps) := fun h => (ih h.2).mono h.1
    cases p with
    | nil =>
      rintro stop caps' h
      cases h
      exact ⟨Nat.le_refl _, hs⟩
    | cons byte rest =>
      have hatom : Ahead subject s
          (matchDefault lone subject byte rest s fun p s => doMatch lone subject fuel p s caps) :=
        ahead_matchDefault (fun text pos _ hpos => ih hpos) hs
      unfold doMatch
      split
      · split
        · exact ahead_error _
        split
        · exact ih hs
        · exact ih hs
      split
      · split
        · exact ahead_error _
        · exact ih hs
      split
      · rintro stop caps' h
        rw [Except.ok.injEq] at h
        split at h
        · cases h
          exact ⟨Nat.le_refl _, hs⟩
        · cases h
      split
      · rcases rest with _ | ⟨escaped, rest⟩
        · exact ahead_error _
        simp only
        split
        · rcases rest with _ | ⟨opening, _ | ⟨closing, rest⟩⟩
          · exact ahead_error _
          · exact ahead_error _
          · simp only
            split
            · exact hstep (matchBalance_ahead ‹_›)
            · exact ahead_none
        split
        · split
          · split
            · exact ahead_error _
            · split
              · exact ih hs
              · exact ahead_none
          · exact ahead_error _
        split
        · split
          · exact ahead_error _
          · split
            · exact hstep (matchCapture_ahead hs ‹_›)
            · exact ahead_none
        · exact hatom
      · exact hatom

end Ahead

/-! ## The loop -/

/-- A step of the loop: bytes to copy, a match to replace, or an error of the pattern. -/
inductive Piece
  | copy (bytes : List UInt8)
  | replace (start stop : Nat) (captures : List Capture)
  | malformed (error : PatternError)
  deriving DecidableEq

section Loop

variable (lone : UInt8 → Bool) (subject : List UInt8) (anchored : Bool) (p : List UInt8)
  (limit : Option Nat)

/-- Go through the subject from `src` on, with `n` matches replaced so far and the end of the last
    one. The rest is copied in one piece. -/
def gsubLoop : Nat → Nat → Nat → Option Nat → Option (List Piece)
  | 0, _, _, _ => none
  | fuel + 1, src, n, lastmatch =>
    if limit.any (· ≤ n) then some [.copy (subject.drop src)]
    else
      match doMatch lone subject p.length p src [] with
      | .error e => some [.malformed e]
      | .ok found =>
        match found.filter fun r => lastmatch != some r.1 with
        | some (e, captures) =>
          (if anchored then some [.copy (subject.drop e)]
            else gsubLoop fuel e (n + 1) (some e)).map (.replace src e captures :: ·)
        | none =>
          match subject[src]? with
          | some byte =>
            (if anchored then some [.copy (subject.drop (src + 1))]
              else gsubLoop fuel (src + 1) n lastmatch).map (.copy [byte] :: ·)
          | none => some [.copy (subject.drop src)]

/-- The steps of the loop over the whole subject. -/
def gsubPieces (pattern : List UInt8) : Option (List Piece) :=
  let anchored := pattern.head? == some (ascii '^')
  gsubLoop lone subject anchored (if anchored then pattern.tail else pattern) limit
    (2 * subject.length + 2) 0 0 none

end Loop

section Steps

variable {lone : UInt8 → Bool} {subject : List UInt8} {anchored : Bool} {p : List UInt8}
  {limit : Option Nat} {pieces : List Piece} {fuel pos start stop n : Nat} {last : Option Nat}
  {caps : List Capture}

/-- So many iterations may be left, and one more at a position where no match ended yet. -/
def iterations (subject : List UInt8) (pos : Nat) (last : Option Nat) : Nat :=
  2 * (subject.length - pos) + if last = some pos then 0 else 1

theorem iterations_next (hlt : pos < subject.length) :
    iterations subject (pos + 1) last < iterations subject pos last := by
  rw [iterations, iterations]
  split <;> split <;> omega

/-- A match that is empty is the first one at its position. -/
theorem iterations_match (hpos : pos ≤ stop) (hstop : stop ≤ subject.length)
    (hne : last ≠ some stop) : iterations subject stop (some stop) < iterations subject pos last := by
  rw [iterations, iterations, if_pos rfl]
  by_cases heq : stop = pos
  · rw [heq] at hne
    rw [if_neg hne]
    omega
  · omega

/-- The loop ends. -/
theorem exists_gsubLoop (hpos : pos ≤ subject.length) (hfuel : iterations subject pos last < fuel) :
    ∃ pieces, gsubLoop lone subject anchored p limit fuel pos n last = some pieces := by
  induction fuel generalizing pos n last with
  | zero => exact absurd hfuel (Nat.not_lt_zero _)
  | succ fuel ih =>
    rw [gsubLoop]
    split
    · exact ⟨_, rfl⟩
    cases hmatch : doMatch lone subject p.length p pos [] with
    | error e => exact ⟨_, rfl⟩
    | ok found =>
      simp only
      split
      · rename_i stop caps hfilter
        obtain ⟨hfound, hlast⟩ := Option.filter_eq_some_iff.1 hfilter
        rw [hfound] at hmatch
        obtain ⟨hle, hstop⟩ := doMatch_ahead hpos stop caps hmatch
        split
        · exact ⟨_, rfl⟩
        · have hmeasure := @iterations_match subject pos stop last hle hstop (bne_iff_ne.1 hlast)
          obtain ⟨pieces, hpieces⟩ := ih hstop (Nat.lt_of_lt_of_le hmeasure (Nat.le_of_lt_succ hfuel))
          exact ⟨_, by rw [hpieces]; rfl⟩
      · cases hbyte : subject[pos]? with
        | none => exact ⟨_, rfl⟩
        | some byte =>
          obtain ⟨hlt, -⟩ := List.getElem?_eq_some_iff.1 hbyte
          simp only
          split
          · exact ⟨_, rfl⟩
          · obtain ⟨pieces, hpieces⟩ :=
              ih hlt (Nat.lt_of_lt_of_le (iterations_next hlt) (Nat.le_of_lt_succ hfuel))
            exact ⟨_, by rw [hpieces]; rfl⟩

/-- The loop over a whole subject ends. -/
theorem exists_gsubPieces (lone : UInt8 → Bool) (subject pattern : List UInt8) (limit : Option Nat) :
    ∃ pieces, gsubPieces lone subject limit pattern = some pieces :=
  exists_gsubLoop (Nat.zero_le _) (by rw [iterations, if_neg nofun]; omega)

/-! ## Searches -/

/-- A search from a position on gets to another one: all positions between fail. -/
structure Reaches (lone : UInt8 → Bool) (subject : List UInt8) (anchored : Bool) (p : List UInt8)
    (pos start : Nat) : Prop where
  le : pos ≤ start
  within : start ≤ subject.length
  anchor : anchored = true → start = pos
  fails : ∀ i, pos ≤ i → i < start → doMatch lone subject p.length p i [] = .ok none

theorem reaches_self (hpos : pos ≤ subject.length) : Reaches lone subject anchored p pos pos :=
  ⟨Nat.le_refl _, hpos, fun _ => rfl, fun _ h h' => absurd h (Nat.not_le_of_lt h')⟩

theorem Reaches.step (h : Reaches lone subject false p (pos + 1) start)
    (hfail : doMatch lone subject p.length p pos [] = .ok none) :
    Reaches lone subject false p pos start where
  le := Nat.le_of_succ_le h.le
  within := h.within
  anchor := nofun
  fails i hle hlt := by
    rcases Nat.eq_or_lt_of_le hle with rfl | hgt
    · exact hfail
    · exact h.fails i hgt hlt

/-- What a search finds, and where it got to. -/
theorem searchLoop_reaches (hn : pos + n = subject.length) :
    match searchLoop lone subject anchored p n pos with
    | .ok none => ∃ start, Reaches lone subject anchored p pos start ∧
      doMatch lone subject p.length p start [] = .ok none ∧ (anchored = true ∨ start = subject.length)
    | .ok (some (start, stop, caps)) => Reaches lone subject anchored p pos start ∧
      doMatch lone subject p.length p start [] = .ok (some (stop, caps))
    | .error e => ∃ start, Reaches lone subject anchored p pos start ∧
      doMatch lone subject p.length p start [] = .error e := by
  have hself : Reaches lone subject anchored p pos pos := reaches_self (by omega)
  induction n generalizing pos with
  | zero =>
    rw [searchLoop]
    rcases hmatch : doMatch lone subject p.length p pos [] with e | _ | ⟨stop, caps⟩
    · exact ⟨pos, hself, hmatch⟩
    · simp only [ite_self]
      exact ⟨pos, hself, hmatch, .inr hn⟩
    · exact ⟨hself, hmatch⟩
  | succ n ih =>
    rw [searchLoop]
    rcases hmatch : doMatch lone subject p.length p pos [] with e | _ | ⟨stop, caps⟩
    · exact ⟨pos, hself, hmatch⟩
    · cases anchored with
      | true => exact ⟨pos, hself, hmatch, .inl rfl⟩
      | false =>
        simp only [Bool.false_eq_true, ↓reduceIte]
        have hrest := @ih (pos + 1) (by omega) (reaches_self (by omega))
        rcases hloop : searchLoop lone subject false p n (pos + 1) with e | _ | ⟨start, stop, caps⟩
        · rw [hloop] at hrest
          obtain ⟨start, hreach, he⟩ := hrest
          exact ⟨start, hreach.step hmatch, he⟩
        · rw [hloop] at hrest
          obtain ⟨start, hreach, hnone⟩ := hrest
          exact ⟨start, hreach.step hmatch, by simpa using hnone⟩
        · rw [hloop] at hrest
          exact ⟨hrest.1.step hmatch, hrest.2⟩
    · exact ⟨hself, hmatch⟩

/-- A match is found from the start position on. -/
theorem strFind_le {pattern : List UInt8} {mode : AnchorMode} (hpos : pos ≤ subject.length)
    (h : strFind lone subject pattern mode pos = .ok (some (start, stop, caps))) : pos ≤ start := by
  have hreaches := @searchLoop_reaches lone subject
    (mode == .honour && pattern.head? == some (ascii '^'))
    (if mode == .honour && pattern.head? == some (ascii '^') then pattern.tail else pattern) pos
    (subject.length - pos) (by omega)
  rw [show searchLoop _ _ _ _ _ _ = .ok (some (start, stop, caps)) from h] at hreaches
  exact hreaches.1.le

/-! ## What the loop does with what a search finds -/

/-- What follows a position, up to another one and from there on. -/
theorem drop_split {l : List UInt8} {a b : Nat} (h : a ≤ b) : (l.take b).drop a ++ l.drop b = l.drop a := by
  have hdrop : l.drop b = (l.drop a).drop (b - a) := by rw [List.drop_drop, Nat.add_sub_of_le h]
  rw [List.drop_take, hdrop, List.take_append_drop]

/-- Bytes copied one by one. -/
def copies (bytes : List UInt8) : List Piece := bytes.map fun byte => .copy [byte]

/-- The positions before the one a search gets to are copied. -/
theorem gsubLoop_skip (hreach : Reaches lone subject anchored p pos start)
    (hlimit : ¬limit.any (· ≤ n) = true)
    (h : gsubLoop lone subject anchored p limit fuel pos n last = some pieces) :
    ∃ fuel' rest, pieces = copies ((subject.take start).drop pos) ++ rest ∧
      gsubLoop lone subject anchored p limit fuel' start n last = some rest := by
  obtain ⟨k, hk⟩ : ∃ k, start = pos + k := ⟨start - pos, by have := hreach.le; omega⟩
  induction k generalizing fuel pos pieces with
  | zero =>
    obtain rfl : start = pos := hk
    refine ⟨fuel, pieces, ?_, h⟩
    rw [List.drop_eq_nil_of_le (List.length_take_le _ _)]
    rfl
  | succ k ih =>
    have hanchored : anchored = false := by
      cases anchored with
      | false => rfl
      | true =>
        have := hreach.anchor rfl
        omega
    subst hanchored
    have hlt : pos < subject.length := by
      have := hreach.within
      omega
    cases fuel with
    | zero => cases h
    | succ fuel =>
      rw [gsubLoop, if_neg hlimit, hreach.fails pos (Nat.le_refl _) (by omega)] at h
      simp only [Option.filter_none, List.getElem?_eq_getElem hlt, Bool.false_eq_true, ↓reduceIte] at h
      obtain ⟨pieces', hpieces', rfl⟩ := Option.map_eq_some_iff.1 h
      have hreach' : Reaches lone subject false p (pos + 1) start :=
        ⟨by omega, hreach.within, nofun, fun i hi => hreach.fails i (by omega)⟩
      obtain ⟨fuel', rest, rfl, hrest⟩ := ih hreach' hpieces' (by omega)
      refine ⟨fuel', rest, ?_, hrest⟩
      have hlen : pos < (subject.take start).length := by
        rw [List.length_take_of_le hreach.within]
        omega
      rw [List.drop_eq_getElem_cons hlen, List.getElem_take]
      rfl

/-- A match that is found is replaced, unless it is the empty one after the last. -/
theorem gsubLoop_found (hreach : Reaches lone subject anchored p pos start)
    (hmatch : doMatch lone subject p.length p start [] = .ok (some (stop, caps)))
    (hlast : last ≠ some stop) (hlimit : ¬limit.any (· ≤ n) = true)
    (h : gsubLoop lone subject anchored p limit fuel pos n last = some pieces) :
    ∃ fuel' rest, pieces = copies ((subject.take start).drop pos) ++ .replace start stop caps :: rest ∧
      (if anchored then some [.copy (subject.drop stop)]
        else gsubLoop lone subject anchored p limit fuel' stop (n + 1) (some stop)) = some rest := by
  obtain ⟨fuel', rest, rfl, hrest⟩ := gsubLoop_skip hreach hlimit h
  cases fuel' with
  | zero => cases hrest
  | succ fuel' =>
    rw [gsubLoop, if_neg hlimit, hmatch] at hrest
    simp only [Option.filter_some, bne_iff_ne.2 hlast, ↓reduceIte] at hrest
    obtain ⟨rest', hrest', rfl⟩ := Option.map_eq_some_iff.1 hrest
    exact ⟨fuel', rest', rfl, hrest'⟩

/-- A byte is copied instead of the empty match after the last. -/
theorem gsubLoop_rejected (hmatch : doMatch lone subject p.length p pos [] = .ok (some (pos, caps)))
    (hlast : last = some pos) (hlimit : ¬limit.any (· ≤ n) = true)
    (h : gsubLoop lone subject false p limit fuel pos n last = some pieces) :
    (subject.length ≤ pos ∧ pieces = [.copy (subject.drop pos)]) ∨
      ∃ fuel' rest, pos < subject.length ∧
        pieces = copies ((subject.take (pos + 1)).drop pos) ++ rest ∧
        gsubLoop lone subject false p limit fuel' (pos + 1) n last = some rest := by
  cases fuel with
  | zero => cases h
  | succ fuel =>
    rw [gsubLoop, if_neg hlimit, hmatch] at h
    simp only [Option.filter_some, hlast, bne_self_eq_false, Bool.false_eq_true, ↓reduceIte] at h
    cases hbyte : subject[pos]? with
    | none =>
      simp only [hbyte] at h
      exact .inl ⟨List.getElem?_eq_none_iff.1 hbyte, (Option.some.inj h).symm⟩
    | some byte =>
      obtain ⟨hlt, rfl⟩ := List.getElem?_eq_some_iff.1 hbyte
      simp only [hbyte] at h
      obtain ⟨rest, hrest, rfl⟩ := Option.map_eq_some_iff.1 h
      refine .inr ⟨fuel, rest, hlt, ?_, hlast ▸ hrest⟩
      have hlen : pos < (subject.take (pos + 1)).length := by
        rw [List.length_take_of_le hlt]
        exact Nat.lt_succ_self pos
      rw [List.drop_eq_getElem_cons hlen, List.getElem_take,
        List.drop_eq_nil_of_le (List.length_take_le _ _)]
      rfl

/-- The loop ends with the error of a pattern that is found malformed. -/
theorem gsubLoop_malformed {e : PatternError} (hreach : Reaches lone subject anchored p pos start)
    (hmatch : doMatch lone subject p.length p start [] = .error e)
    (hlimit : ¬limit.any (· ≤ n) = true)
    (h : gsubLoop lone subject anchored p limit fuel pos n last = some pieces) :
    pieces = copies ((subject.take start).drop pos) ++ [.malformed e] := by
  obtain ⟨fuel', rest, rfl, hrest⟩ := gsubLoop_skip hreach hlimit h
  cases fuel' with
  | zero => cases hrest
  | succ fuel' =>
    rw [gsubLoop, if_neg hlimit, hmatch] at hrest
    rw [← Option.some.inj hrest]

/-- The rest of the subject is copied where nothing is found. -/
theorem gsubLoop_missed (hreach : Reaches lone subject anchored p pos start)
    (hmatch : doMatch lone subject p.length p start [] = .ok none)
    (hend : anchored = true ∨ start = subject.length) (hlimit : ¬limit.any (· ≤ n) = true)
    (h : gsubLoop lone subject anchored p limit fuel pos n last = some pieces) :
    ∃ runs : List (List UInt8), pieces = runs.map .copy ∧ runs.flatten = subject.drop pos := by
  obtain ⟨fuel', rest, rfl, hrest⟩ := gsubLoop_skip hreach hlimit h
  have hskipped := drop_split (l := subject) hreach.le
  have hcopies : ∀ runs : List (List UInt8), rest = runs.map .copy →
      runs.flatten = subject.drop start →
        ∃ runs : List (List UInt8), copies ((subject.take start).drop pos) ++ rest = runs.map .copy ∧
          runs.flatten = subject.drop pos := by
    rintro runs rfl hruns
    refine ⟨((subject.take start).drop pos).map ([·]) ++ runs, ?_, ?_⟩
    · rw [copies, List.map_append, List.map_map]
      rfl
    · rw [List.flatten_append, ← List.flatMap_def, List.flatMap_singleton', hruns, hskipped]
  cases fuel' with
  | zero => cases hrest
  | succ fuel' =>
    rw [gsubLoop, if_neg hlimit, hmatch] at hrest
    simp only [Option.filter_none] at hrest
    cases hbyte : subject[start]? with
    | none =>
      simp only [hbyte] at hrest
      exact hcopies [subject.drop start] (Option.some.inj hrest).symm (List.flatten_singleton)
    | some byte =>
      obtain ⟨hlt, rfl⟩ := List.getElem?_eq_some_iff.1 hbyte
      have hanchored : anchored = true := hend.resolve_right (Nat.ne_of_lt hlt)
      simp only [hbyte, hanchored, ↓reduceIte] at hrest
      refine hcopies [[subject[start]], subject.drop (start + 1)] (Option.some.inj hrest).symm ?_
      rw [List.drop_eq_getElem_cons hlt, List.flatten_cons, List.flatten_singleton]
      rfl

end Steps

end Reference

/-! ## What a matcher reports -/

/-- A capture as a caller sees it. -/
def Capture.seen (capture : Capture) : LuaCapture :=
  match capture.len with
  | .len n => .bytes capture.init (capture.init + n)
  | .position => .position capture.init
  | .unfinished => .unfinished

/-- The captures of a match as a caller sees them, the whole match first. -/
def seenCaptures (start stop : Nat) (caps : List Capture) : List LuaCapture :=
  .bytes start stop :: caps.map Capture.seen

namespace LuaPattern

/-- A matcher that found a match of a pattern. -/
structure Reports (m : LuaPattern) (pattern : List UInt8) (mode : AnchorMode) (subject : List UInt8)
    (start stop : Nat) (caps : List Capture) : Prop where
  compiled : m.compiled = compile pattern mode
  slots : m.slots.length = luaMaxCaptures
  range : m.range = some (start, stop)
  nMatch : m.nMatch = caps.length + 1
  capture : ∀ i < m.nMatch, m.capture i = (seenCaptures start stop caps)[i]?
  within : ∀ c ∈ seenCaptures start stop caps, c.Within subject.length

/-- What a search ends with: a match or none, as the reference has it, or the error of the
    reference, unless a limit stops it. -/
def Answers (pattern : List UInt8) (mode : AnchorMode) (subject : List UInt8)
    (interrupt : Nat → Bool) (ref : Except PatternError (Option (Nat × Nat × List Capture))) :
    Outcome Clock MatchError (Bool × LuaPattern) → Prop
  | .ok (false, _) _ => ref = .ok none
  | .ok (true, m) _ => ∃ start stop caps, ref = .ok (some (start, stop, caps)) ∧
    m.Reports pattern mode subject start stop caps
  | .fail e clock => Search.Limit ⟨subject, compile pattern mode, interrupt⟩ e clock ∨
    ∃ pe, e = .pattern pe ∧ ref = .error pe
  | .panic | .timeout => False

variable {m : LuaPattern} {pattern subject : List UInt8} {mode : AnchorMode}
  {interrupt : Nat → Bool} {pos : Nat}

/-- A matcher answers as the reference does, whatever it found before. -/
theorem matchesBytesFrom_answers (hm : m.compiled = compile pattern mode)
    (hslots : m.slots.length = luaMaxCaptures) (hpos : pos ≤ subject.length) (clock : Clock) :
    Answers pattern mode subject interrupt
      (Reference.strFind Reference.literalLone subject pattern mode pos)
      (m.matchesBytesFrom subject pos interrupt clock) := by
  let S : Search := ⟨subject, compile pattern mode, interrupt⟩
  have h : wp (S.strMatch pos m.slots) _ _ clock := S.wp_strMatch pattern mode rfl hpos hslots
  have hready : m.Ready := ⟨hm ▸ compile_scoped pattern mode, hslots⟩
  have hfound := @wp_matchesBytesFrom m subject pos interrupt clock hready hpos
  have hsettles : S.strMatch pos m.slots clock ≠ .timeout := Search.settles_strMatch clock
  obtain ⟨k, hrun, hnone, hsome⟩ : ∃ k,
      m.matchesBytesFrom subject pos interrupt clock = (S.strMatch pos m.slots >>= k) clock ∧
      (∀ slots, k (none, slots) = pure (false, { m with slots, nMatch := 0 })) ∧
      ∀ whole slots, k (some whole, slots) =
        pure (true, { m with slots, whole, nMatch := m.compiled.captures + 1 }) :=
    ⟨_, by rw [matchesBytesFrom, hm], fun _ => by rw [hm], fun _ _ => by rw [hm]⟩
  rw [wp, hrun] at hfound
  rw [hrun]
  cases hr : S.strMatch pos m.slots clock with
  | timeout => exact absurd hr hsettles
  | panic =>
    rw [wp, hr] at h
    exact h.elim
  | fail e clock' =>
    rw [run_bind_of_fail hr]
    exact h.error hr
  | ok r clock' =>
    have hok := h.ok hr
    rcases r with ⟨_ | ⟨start, stop⟩, slots⟩
    · rw [run_bind_of_ok hr, hnone]
      exact hok.2
    · obtain ⟨caps, hslots', hlen, href⟩ := hok
      rw [run_bind_of_ok hr, hsome] at hfound
      obtain ⟨hready', hfound⟩ := hfound
      have hlen' : m.compiled.captures = caps.length := by
        rw [hm]
        exact hlen.symm
      rw [run_bind_of_ok hr, hsome]
      have hcapture : ∀ i < caps.length + 1, LuaPattern.capture
          { m with slots, whole := (start, stop), nMatch := m.compiled.captures + 1 } i =
            (seenCaptures start stop caps)[i]? := by
        intro i hi
        have hlt : i < m.compiled.captures + 1 := hlen'.symm ▸ hi
        cases i with
        | zero => rw [LuaPattern.capture, if_pos hlt, seenCaptures, List.getElem?_cons_zero]
        | succ i =>
          have hi' : i < caps.length := Nat.lt_of_succ_lt_succ hi
          rw [LuaPattern.capture, if_pos hlt]
          show CaptureSlots.get slots i = (caps.map Capture.seen)[i]?
          rw [CaptureSlots.get, hslots', List.getElem?_append_left hi', List.getElem?_map]
          rfl
      refine ⟨start, stop, caps, href, hm, hready'.slots, ?_, congrArg (· + 1) hlen', ?_, ?_⟩
      · rw [LuaPattern.range, if_pos (Nat.succ_pos _)]
      · intro i hi
        exact hcapture i (hlen' ▸ hi)
      · intro c hc
        obtain ⟨i, hi⟩ := List.getElem?_of_mem hc
        have hlt : i < caps.length + 1 := by
          have := (List.getElem?_eq_some_iff.1 hi).1
          rwa [seenCaptures, List.length_cons, List.length_map] at this
        obtain ⟨c', hc', hwithin⟩ := (hfound rfl).captures i (hlen'.symm ▸ hlt)
        rw [hcapture i hlt, hi] at hc'
        obtain rfl : c = c' := Option.some.inj hc'
        exact hwithin

end LuaPattern

end Dellingr.Patterns
