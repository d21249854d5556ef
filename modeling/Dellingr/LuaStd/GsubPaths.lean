import Dellingr.LuaStd.Gsub
import Dellingr.Patterns.ReferenceLoop

/-!
# The paths of `string.gsub`

The loops for the empty pattern and for patterns without magic give what the general loop gives with
the same pattern, unless a limit stops one of the calls (`gsubEmptyPattern_general`,
`gsubPlainPattern_general`). The loop for the empty pattern takes the steps of the general one, a
match and a rejected match at every position, together. Once no more matches may be replaced, it goes
on byte by byte where the general loop copies the rest at once.
-/

namespace Dellingr

open Effect Patterns

section Paths

variable {ι ε α β : Type} {interrupt : Nat → Bool} {repl : Replacement ι ε} {subject : List UInt8}
  {limit : Option Nat} {s t : GsubState ι}

/-! ## Bytes appended in different ways -/

/-- A computation gives `a` and appends bytes, unless a limit stops it or the result is too long. -/
def Appends (interrupt : Nat → Bool) (bytes : List UInt8) (a : α) (m : Gsub ι ε α)
    (s : GsubState ι) : Prop :=
  Stops (GsubStop interrupt) m s ∨
    (s.out.length + bytes.length ≤ MAX_STRING_BYTES ∧
      ∃ clock, m s = .ok a { s with out := s.out ++ bytes, clock }) ∨
    (MAX_STRING_BYTES < s.out.length + bytes.length ∧ ∃ s', m s = .fail .stringSizeExceeded s')

theorem appends_pure {a : α} (h : s.out.length ≤ MAX_STRING_BYTES) :
    Appends interrupt [] a (pure a : Gsub ι ε α) s :=
  .inr (.inl ⟨h, s.clock, by rw [List.append_nil]; rfl⟩)

theorem Appends.bind {bytes more : List UInt8} {a : α} {b : β} {m : Gsub ι ε α} {f : α → Gsub ι ε β}
    (h : Appends interrupt bytes a m s)
    (hf : ∀ s', s'.out.length ≤ MAX_STRING_BYTES → Appends interrupt more b (f a) s') :
    Appends interrupt (bytes ++ more) b (m >>= f) s := by
  rcases h with h | ⟨hfit, clock, hm⟩ | ⟨hlong, s', hm⟩
  · exact .inl h.bind
  · have hlen : (s.out ++ bytes).length = s.out.length + bytes.length := List.length_append
    have hrest := hf { s with out := s.out ++ bytes, clock } (hlen.symm ▸ hfit)
    rw [Appends, Stops, run_bind_of_ok hm, List.length_append, ← Nat.add_assoc, ← hlen,
      ← List.append_assoc]
    exact hrest
  · refine .inr (.inr ⟨?_, s', run_bind_of_fail hm⟩)
    rw [List.length_append]
    omega

/-- The same bytes are appended on both sides. -/
theorem Appends.relUnless {bytes : List UInt8} {a : α} {b : β} {m : Gsub ι ε α} {m' : Gsub ι ε β}
    {R : α → GsubState ι → β → GsubState ι → Prop} (h : Appends interrupt bytes a m s)
    (h' : Appends interrupt bytes b m' t) (hs : InStep s t)
    (hR : ∀ s t, InStep s t → R a s b t) :
    relUnless (GsubStop interrupt) (GsubStop interrupt) m m' R s t := by
  rcases h with h | ⟨hfit, clock, hm⟩ | ⟨hlong, s', hm⟩
  · exact .inl h
  · rcases h' with h' | ⟨-, clock', hm'⟩ | ⟨hlong, -⟩
    · exact .inr (.inl h')
    · rw [Effect.relUnless, hm, hm']
      refine .inr (.inr (hR _ _ ⟨?_, hs.template, hs.world, ?_⟩))
      · rw [hs.out]
      · rwa [List.length_append]
    · rw [hs.out] at hfit
      omega
  · rcases h' with h' | ⟨hfit, -⟩ | ⟨-, t', hm'⟩
    · exact .inr (.inl h')
    · rw [hs.out] at hlong
      omega
    · rw [Effect.relUnless, hm, hm']
      exact .inr (.inr rfl)

theorem appends_onClock {scan : Scan α} {a : α} (hs : s.out.length ≤ MAX_STRING_BYTES)
    (h : EndsWith interrupt a scan s.clock) :
    Appends interrupt [] a (onClock scan : Gsub ι ε α) s := by
  rcases @onClock_ends ι ε α interrupt s scan a h with hstop | ⟨clock, hok⟩
  · exact .inl hstop
  · exact .inr (.inl ⟨hs, clock, by rw [hok, List.append_nil]⟩)

/-- Bytes are appended after a check of the length. -/
theorem appends_checked {bytes : List UInt8} {m : Unit → Gsub ι ε Unit}
    (hm : s.out.length + bytes.length ≤ MAX_STRING_BYTES → Appends interrupt bytes () (m ()) s) :
    Appends interrupt bytes () (checkStringGrowth bytes.length >>= m) s := by
  by_cases hle : s.out.length + bytes.length ≤ MAX_STRING_BYTES
  · rw [Appends, Stops, run_bind_of_ok (checkStringGrowth_ok hle)]
    exact hm hle
  · have hlt := Nat.lt_of_not_le hle
    exact .inr (.inr ⟨hlt, s, run_bind_of_fail (checkStringGrowth_fail hlt)⟩)

theorem appends_extendOut {bytes : List UInt8} (h : s.out.length + bytes.length ≤ MAX_STRING_BYTES) :
    Appends interrupt bytes () (extendOut bytes : Gsub ι ε Unit) s :=
  .inr (.inl ⟨h, s.clock, rfl⟩)

theorem appends_range {start stop : Nat} (h : start ≤ stop ∧ stop ≤ subject.length) :
    Appends interrupt ((subject.take stop).drop start) ()
      (appendSubjectRange subject start stop : Gsub ι ε Unit) s := by
  rw [appendSubjectRange, ← length_range h, require, if_pos h]
  refine appends_checked fun hle => ?_
  rcases onClock_ends (@endsWith_chargeOnce interrupt _ s.clock) with hstop | ⟨clock, hok⟩
  · exact .inl hstop.bind
  · rw [Appends, Stops, run_bind_of_ok hok]
    exact appends_extendOut hle

/-! ## The empty pattern -/

theorem appends_emptyCopy {count pos : Nat} (hs : s.out.length ≤ MAX_STRING_BYTES) :
    Appends interrupt ((subject.take (pos + 1)).drop pos) count
      (gsubEmptyCopy subject count pos : Gsub ι ε Nat) s := by
  rw [gsubEmptyCopy]
  split
  · rename_i hlt
    rw [← List.append_nil ((subject.take (pos + 1)).drop pos)]
    exact (appends_range ⟨Nat.le_succ pos, hlt⟩).bind fun s hs => appends_pure hs
  · rw [List.drop_eq_nil_of_le (by rw [List.length_take]; omega)]
    exact appends_pure hs

/-- Once no more matches may be replaced, the rest of the subject is copied. -/
theorem appends_emptyRest {count pos n : Nat} (hlimit : limit.all (count < ·) = false)
    (hn : pos + n = subject.length + 1) (hs : s.out.length ≤ MAX_STRING_BYTES) :
    Appends interrupt (subject.drop pos) count
      ((List.range' pos n).foldlM (gsubEmptyStep interrupt repl subject limit) count) s := by
  induction n generalizing pos s with
  | zero =>
    rw [List.drop_eq_nil_of_le (by omega)]
    exact appends_pure hs
  | succ n ih =>
    rw [List.range'_succ, List.foldlM_cons, gsubEmptyStep, hlimit, bind_assoc,
      ← Reference.drop_split (Nat.le_succ pos), ← List.nil_append ((subject.take (pos + 1)).drop pos ++ _)]
    refine (appends_onClock hs (endsWith_pollInterrupt s.clock)).bind fun s hs => ?_
    exact (appends_emptyCopy hs).bind fun s hs => ih (by omega) hs

/-! ## Searches of the general loop -/

variable {pattern : List UInt8} {m : LuaPattern} {fuel pos count : Nat} {last : Option Nat}

/-- The general loop goes on with what the matcher answers. -/
theorem relUnless_search {σ δ : Type} {S : GsubError ε → GsubState ι → Prop}
    {S' : GsubError ε → σ → Prop} {mode : AnchorMode} {f : Bool × LuaPattern → Gsub ι ε β}
    {m' : Effect σ (GsubError ε) δ} {R : β → GsubState ι → δ → σ → Prop} {t : σ}
    (hm : m.compiled = compile pattern mode) (hslots : m.slots.length = luaMaxCaptures)
    (hpos : pos ≤ subject.length)
    (hstop : ∀ e clock, Search.Limit ⟨subject, compile pattern mode, interrupt⟩ e clock →
      S (.ofMatchError e) { s with clock })
    (hanswer : ∀ clock,
      match Reference.strFind Reference.literalLone subject pattern mode pos with
      | .ok none => ∀ m, relUnless S S' (f (false, m)) m' R { s with clock } t
      | .ok (some (start, stop, caps)) => ∀ m : LuaPattern,
        m.Reports pattern mode subject start stop caps →
          relUnless S S' (f (true, m)) m' R { s with clock } t
      | .error e => relUnless S S' (fail (.pattern e)) m' R { s with clock } t) :
    relUnless S S' (onClock (m.matchesBytesFrom subject pos interrupt) >>= f) m' R s t := by
  have h := @LuaPattern.matchesBytesFrom_answers m pattern subject mode interrupt pos hm hslots hpos s.clock
  cases hr : m.matchesBytesFrom subject pos interrupt s.clock with
  | ok r clock =>
    have hok : (onClock (m.matchesBytesFrom subject pos interrupt) : Gsub ι ε _) s =
        .ok r { s with clock } := by rw [onClock, hr]
    have hgo := hanswer clock
    rw [hr] at h
    rcases r with ⟨_ | _, m⟩
    · rw [show Reference.strFind _ _ _ _ _ = .ok none from h] at hgo
      exact relUnless_left hok (hgo m)
    · obtain ⟨start, stop, caps, href, hreports⟩ := h
      rw [href] at hgo
      exact relUnless_left hok (hgo m hreports)
  | fail e clock =>
    have hfail : (onClock (m.matchesBytesFrom subject pos interrupt) : Gsub ι ε _) s =
        .fail (.ofMatchError e) { s with clock } := by rw [onClock, hr]
    rw [hr] at h
    rcases h with hlimit | ⟨pe, rfl, href⟩
    · exact relUnless_stopped_left (run_bind_of_fail hfail) (hstop e clock hlimit)
    · have hgo := hanswer clock
      rw [href] at hgo
      rw [relUnless, Stops, run_bind_of_fail hfail]
      exact hgo
  | panic =>
    rw [hr] at h
    exact h.elim
  | timeout =>
    rw [hr] at h
    exact h.elim

/-- A list that is demanded element by element. -/
theorem mapM_demand {σ ε γ : Type} (l : List γ) (g : Nat → Option γ) (h : ∀ i < l.length, g i = l[i]?) :
    ((List.range l.length).mapM fun i => demand (g i) : Effect σ ε _) = pure l := by
  induction l generalizing g with
  | nil => rfl
  | cons c l ih =>
    have hrest := ih (fun i => g (i + 1)) fun i hi => by
      rw [h (i + 1) (Nat.succ_lt_succ hi), List.getElem?_cons_succ]
    rw [List.length_cons, List.range_succ_eq_map, List.mapM_cons, List.mapM_map, h 0 (Nat.succ_pos _),
      List.getElem?_cons_zero, demand, pure_bind]
    exact (congrArg (· >>= fun bs => pure (c :: bs)) hrest).trans (pure_bind _ _)

/-- The captures that a matcher reports. -/
theorem mapM_capture {σ ε : Type} {mode : AnchorMode} {start stop : Nat} {caps : List Capture}
    (h : m.Reports pattern mode subject start stop caps) :
    ((List.range m.nMatch).mapM fun i => demand (m.capture i) : Effect σ ε _) =
      pure (seenCaptures start stop caps) := by
  have hlen : m.nMatch = (seenCaptures start stop caps).length := by
    rw [seenCaptures, List.length_cons, List.length_map, h.nMatch]
  rw [hlen]
  exact mapM_demand _ _ fun i hi => h.capture i (hlen ▸ hi)

theorem demand_range {σ : Type} {mode : AnchorMode} {start stop : Nat} {caps : List Capture}
    (h : m.Reports pattern mode subject start stop caps) :
    (demand m.range : Effect σ (GsubError ε) _) = pure (start, stop) := by
  rw [h.range]
  rfl

/-- A limit of a search of a pattern without magic is one of the call. -/
theorem gsubStop_of_plain (hp : isPlain pattern = true) {e : MatchError} {clock : Clock}
    (h : Search.Limit ⟨subject, compile pattern .honour, interrupt⟩ e clock) :
    GsubStop interrupt (.ofMatchError e : GsubError ε) { s with clock } := by
  cases e with
  | interrupted => exact h
  | budgetExceeded => exact h
  | pattern pe =>
    cases pe with
    | matchDepthExceeded =>
      have hdeep : maxCCalls ≤ (compile pattern .honour).items.countP Item.deepens := h
      rw [deepens_plain hp] at hdeep
      exact absurd hdeep (by decide)
    | _ => exact h.elim

theorem anchored_plain (hp : isPlain pattern = true) (mode : AnchorMode) :
    (compile pattern mode).anchored = false := by
  rw [show (compile pattern mode).anchored = (mode == .honour && pattern.head? == some (ascii '^')) from rfl,
    beq_false_of_ne (head_ne_of_isPlain hp rfl), Bool.and_false]

/-! ## The end of a call -/

/-- The end of the general loop: the rest of the subject is copied. -/
def copyRest (subject : List UInt8) (r : Nat × Nat) : Gsub ι ε Nat := do
  appendSubjectRange subject r.1 subject.length
  return r.2

theorem appends_copyRest (hpos : pos ≤ subject.length) :
    Appends interrupt (subject.drop pos) count (copyRest subject (pos, count) : Gsub ι ε Nat) s := by
  have hcopy := @appends_range ι ε interrupt subject s pos subject.length ⟨hpos, Nat.le_refl _⟩
  rw [List.take_length] at hcopy
  rw [← List.append_nil (subject.drop pos)]
  exact hcopy.bind fun s hs => appends_pure hs

/-- The general path with the rest of the subject copied at the end. -/
theorem gsubLuaPattern_eq :
    gsubLuaPattern interrupt repl subject limit pattern =
      (gsubLuaLoop interrupt repl subject limit (2 * subject.length + 2)
        (LuaPattern.fromCompiled (compile pattern .honour)) 0 0 none >>= copyRest subject) >>= fun count => do
          return ((← get).out, count) := by
  simp only [gsubLuaPattern, copyRest, bind_assoc, pure_bind]

/-- Two calls return the same result and count where they are in step. -/
theorem relUnless_result {m m' : Gsub ι ε Nat}
    (h : relUnless (GsubStop interrupt) (GsubStop interrupt) m m' (fun c s c' t => c = c' ∧ InStep s t) s t) :
    relUnless (GsubStop interrupt) (GsubStop interrupt)
      (m >>= fun count => do return ((← get).out, count))
      (m' >>= fun count => do return ((← get).out, count))
      (fun r s r' t => r = r' ∧ s.world = t.world) s t := by
  refine relUnless_bind (relUnless_mono_ok h ?_)
  rintro c s _ t ⟨rfl, hs⟩
  exact .inr (.inr ⟨Prod.ext hs.out rfl, hs.world⟩)

theorem strFind_empty (mode : AnchorMode) :
    Reference.strFind Reference.literalLone subject [] mode pos = .ok (some (pos, pos, [])) := by
  rw [Reference.strFind_plain rfl]
  cases subject.length - pos <;> rw [Reference.firstOccurrence, if_pos List.nil_prefix] <;> rfl

/-- Nothing is appended between an empty match and the one before. -/
theorem appendSubjectRange_self (hpos : pos ≤ subject.length) (hs : s.out.length ≤ MAX_STRING_BYTES) :
    (appendSubjectRange subject pos pos : Gsub ι ε Unit) s = .ok () s := by
  rw [appendSubjectRange, Nat.sub_self, run_bind_of_ok (checkStringGrowth_ok hs)]
  have hclock : (onClock (chargeOnce 0) : Gsub ι ε Unit) s = .ok () s := by
    rw [onClock, chargeOnce_zero]
  rw [run_bind_of_ok hclock, require, if_pos ⟨Nat.le_refl _, hpos⟩, pure_bind,
    List.drop_eq_nil_of_le (List.length_take_le _ _)]
  show Outcome.ok () { s with out := s.out ++ [] } = _
  rw [List.append_nil]

theorem limit_reached : limit.any (· ≤ count) = true ↔ limit.all (count < ·) = false := by
  cases limit <;> simp

/-! ## Loops side by side -/

variable (hrepl : repl.Steady interrupt)
include hrepl

/-- From every position on the general loop replaces the occurrences that the plain loop replaces. -/
theorem relUnless_plainLoop {fuel' : Nat} (hsize : subject.length < 2 ^ 64) (hp : isPlain pattern = true) (hne : pattern ≠ [])
    (hm : m.compiled = compile pattern .honour) (hslots : m.slots.length = luaMaxCaptures)
    (hpos : pos ≤ subject.length) (hfuel : subject.length - pos < fuel)
    (hfuel' : subject.length - pos < fuel') (hs : InStep s t) :
    relUnless (GsubStop interrupt) (GsubStop interrupt)
      (gsubLuaLoop interrupt repl subject limit fuel m pos count last)
      (gsubPlainLoop interrupt repl subject limit pattern fuel' pos count)
      (fun r s r' t => r = r' ∧ r.1 ≤ subject.length ∧ InStep s t) s t := by
  induction fuel generalizing fuel' m pos count last s t with
  | zero => exact absurd hfuel (Nat.not_lt_zero _)
  | succ fuel ih =>
    obtain ⟨fuel', rfl⟩ : ∃ n, fuel' = n + 1 := Nat.exists_eq_succ_of_ne_zero (by omega)
    rw [gsubLuaLoop, gsubPlainLoop]
    have hfind := @Reference.strFind_plain pattern subject Reference.literalLone hp .honour pos
    by_cases hlt : pos < subject.length
    · rw [if_pos hlt]
      refine relUnless_ite (fun _ => relUnless_pure ⟨rfl, hpos, hs⟩) fun _ => ?_
      have hdrop := @firstOccurrence_drop subject pattern pos (subject.length - pos) 0
      rw [Nat.add_zero] at hdrop
      rw [← hdrop] at hfind
      refine relUnless_onClock_right (endsWith_findSubslice hpos hsize t.clock) fun clock' => ?_
      refine relUnless_search hm hslots hpos (fun e clock => gsubStop_of_plain hp) fun clock => ?_
      rw [hfind]
      cases Reference.firstOccurrence (subject.drop pos) pattern (subject.length - pos) 0 with
      | none =>
        intro m
        exact relUnless_pure ⟨rfl, hpos, hs.out, hs.template, hs.world, hs.size⟩
      | some offset =>
        intro m hreports
        obtain ⟨hstart, hstop⟩ : pos + offset ≤ pos + offset + pattern.length ∧
            pos + offset + pattern.length ≤ subject.length :=
          hreports.within _ List.mem_cons_self
        have hpattern := List.length_pos_iff.2 hne
        have hinside : pos ≤ pos + offset ∧ pos + offset ≤ subject.length := by omega
        have hs' : InStep { s with clock } { t with clock := clock' } :=
          ⟨hs.out, hs.template, hs.world, hs.size⟩
        simp only [Bool.not_true, Bool.false_eq_true, ↓reduceIte, demand_range hreports, pure_bind]
        rw [if_neg fun h => by omega, mapM_capture hreports]
        refine relUnless_bind (relUnless_mono_ok (steady_appendSubjectRange hinside _ _ hs') ?_)
        rintro _ s₁ _ t₁ ⟨-, h₁⟩
        rw [pure_bind]
        refine relUnless_bind (relUnless_mono_ok
          (steady_appendGsubReplacement hrepl (List.cons_ne_nil _ _) hreports.within _ _ h₁) ?_)
        rintro _ s₂ _ t₂ ⟨-, h₂⟩
        rw [hreports.compiled, anchored_plain hp, if_neg Bool.false_ne_true]
        exact ih hreports.compiled hreports.slots hstop (by omega) (by omega) h₂
    · -- Nothing is left to search.
      obtain rfl : pos = subject.length := by omega
      have hnone : Reference.firstOccurrence subject pattern (subject.length - subject.length)
          subject.length = none :=
        firstOccurrence_short (List.length_pos_iff.2 hne) (by
          have := List.length_pos_iff.2 hne
          omega)
      rw [if_neg (Nat.lt_irrefl _)]
      split
      · exact relUnless_pure ⟨rfl, hpos, hs⟩
      · refine relUnless_search hm hslots hpos (fun e clock => gsubStop_of_plain hp) fun clock => ?_
        rw [hfind, hnone]
        intro m
        exact relUnless_pure ⟨rfl, hpos, hs.out, hs.template, hs.world, hs.size⟩

/-- A step of the loop for the empty pattern is two steps of the general loop. -/
theorem relUnless_emptyStep {n : Nat} (hm : m.compiled = compile [] .honour)
    (hslots : m.slots.length = luaMaxCaptures) (hn : pos + n = subject.length)
    (hlast : last ≠ some pos) (hs : InStep s t)
    (hrest : pos < subject.length → ∀ (m : LuaPattern) (s t : GsubState ι),
      m.compiled = compile [] .honour → m.slots.length = luaMaxCaptures → InStep s t →
        relUnless (GsubStop interrupt) (GsubStop interrupt)
          (gsubLuaLoop interrupt repl subject limit fuel m (pos + 1) (count + 1) (some pos) >>=
            copyRest subject)
          ((List.range' (pos + 1) n).foldlM (gsubEmptyStep interrupt repl subject limit) (count + 1))
          (fun c s c' t => c = c' ∧ InStep s t) s t) :
    relUnless (GsubStop interrupt) (GsubStop interrupt)
      (gsubLuaLoop interrupt repl subject limit (fuel + 2) m pos count last >>= copyRest subject)
      ((List.range' pos (n + 1)).foldlM (gsubEmptyStep interrupt repl subject limit) count)
      (fun c s c' t => c = c' ∧ InStep s t) s t := by
  have hpos : pos ≤ subject.length := by omega
  have hdone : ∀ s t : GsubState ι, InStep s t → s.out.length ≤ MAX_STRING_BYTES ∧
      t.out.length ≤ MAX_STRING_BYTES := fun s t h => ⟨h.size, h.out ▸ h.size⟩
  rw [gsubLuaLoop]
  by_cases hlimit : limit.any (· ≤ count) = true
  · rw [if_pos hlimit, pure_bind]
    exact (appends_copyRest hpos).relUnless
      (appends_emptyRest (limit_reached.1 hlimit) (by omega) (hdone s t hs).2) hs fun _ _ h => ⟨rfl, h⟩
  have hmore : limit.all (count < ·) = true := by
    rwa [limit_reached, Bool.not_eq_false] at hlimit
  rw [if_neg hlimit, bind_assoc, List.range'_succ, List.foldlM_cons, gsubEmptyStep, hmore, bind_assoc]
  refine relUnless_onClock_right (endsWith_pollInterrupt t.clock) fun clock' => ?_
  refine relUnless_search hm hslots hpos (fun e clock => gsubStop_of_plain rfl) fun clock => ?_
  rw [strFind_empty]
  intro m hreports
  have hs' : InStep { s with clock } { t with clock := clock' } :=
    ⟨hs.out, hs.template, hs.world, hs.size⟩
  simp only [Bool.not_true, Bool.false_eq_true, ↓reduceIte, demand_range hreports, pure_bind, true_and]
  simp only [if_neg hlast, mapM_capture hreports, bind_assoc, pure_bind]
  refine relUnless_left (appendSubjectRange_self hpos hs'.size) ?_
  refine relUnless_bind (relUnless_mono_ok
    (steady_appendGsubReplacement hrepl (List.cons_ne_nil _ _) hreports.within _ _ hs') ?_)
  rintro _ s₁ _ t₁ ⟨-, h₁⟩
  rw [hreports.compiled, anchored_plain rfl, if_neg Bool.false_ne_true, gsubLuaLoop]
  by_cases hlimit' : limit.any (· ≤ count + 1) = true
  · -- This was the last match that may be replaced.
    rw [if_pos hlimit', pure_bind]
    refine (appends_copyRest hpos).relUnless (?_ : Appends _ _ (count + 1) _ _) h₁ fun _ _ h => ⟨rfl, h⟩
    rw [← Reference.drop_split (Nat.le_succ pos)]
    exact (appends_emptyCopy (hdone _ _ h₁).2).bind fun s hs =>
      appends_emptyRest (limit_reached.1 hlimit') (by omega) hs
  -- The match right after it is rejected.
  rw [if_neg hlimit', bind_assoc]
  refine relUnless_search hreports.compiled hreports.slots hpos (fun e clock => gsubStop_of_plain rfl)
    fun clock => ?_
  rw [strFind_empty]
  intro m hreports
  have h₂ : InStep { s₁ with clock } t₁ := ⟨h₁.out, h₁.template, h₁.world, h₁.size⟩
  simp only [Bool.not_true, Bool.false_eq_true, ↓reduceIte, demand_range hreports, pure_bind,
    and_self]
  by_cases hend : pos = subject.length
  · obtain rfl : n = 0 := by omega
    rw [if_pos hend, pure_bind]
    refine (appends_copyRest hpos).relUnless (?_ : Appends _ _ (count + 1) _ _) h₂ fun _ _ h => ⟨rfl, h⟩
    rw [← Reference.drop_split (Nat.le_succ pos), List.drop_eq_nil_of_le (by omega : _ ≤ pos + 1)]
    exact (appends_emptyCopy (hdone _ _ h₂).2).bind fun s hs => appends_pure hs
  · have hlt : pos < subject.length := Nat.lt_of_le_of_ne hpos hend
    rw [if_neg hend, gsubEmptyCopy, if_pos hlt]
    simp only [bind_assoc, pure_bind]
    refine relUnless_bind (relUnless_mono_ok
      (steady_appendSubjectRange ⟨Nat.le_succ pos, hlt⟩ _ _ h₂) ?_)
    rintro _ s₃ _ t₃ ⟨-, h₃⟩
    exact hrest hlt m s₃ t₃ hreports.compiled hreports.slots h₃

/-- From every position on, the general loop with the empty pattern takes two steps for each one of
    the loop for the empty pattern. -/
theorem relUnless_emptyLoop {n : Nat} (hm : m.compiled = compile [] .honour)
    (hslots : m.slots.length = luaMaxCaptures) (hn : pos + n = subject.length)
    (hfuel : 2 * n + 2 ≤ fuel) (hlast : last ≠ some pos) (hs : InStep s t) :
    relUnless (GsubStop interrupt) (GsubStop interrupt)
      (gsubLuaLoop interrupt repl subject limit fuel m pos count last >>= copyRest subject)
      ((List.range' pos (n + 1)).foldlM (gsubEmptyStep interrupt repl subject limit) count)
      (fun c s c' t => c = c' ∧ InStep s t) s t := by
  obtain ⟨fuel, rfl⟩ : ∃ k, fuel = k + 2 := ⟨fuel - 2, by omega⟩
  induction n generalizing fuel m pos count last s t with
  | zero => exact relUnless_emptyStep hrepl hm hslots hn hlast hs fun hlt => by omega
  | succ n ih =>
    refine relUnless_emptyStep hrepl hm hslots hn hlast hs fun _ m s t hm hslots hs => ?_
    obtain ⟨fuel, rfl⟩ : ∃ k, fuel = k + 2 := ⟨fuel - 2, by omega⟩
    exact ih hm hslots (by omega) (by simp) hs fuel (by omega)

/-! ## Whole calls -/

/-- The path for the empty pattern gives what the general path gives. -/
theorem gsubEmptyPattern_general (hs : InStep s t) :
    relUnless (GsubStop interrupt) (GsubStop interrupt)
      (gsubLuaPattern interrupt repl subject limit []) (gsubEmptyPattern interrupt repl subject limit)
      (fun r s r' t => r = r' ∧ s.world = t.world) s t := by
  rw [gsubLuaPattern_eq, gsubEmptyPattern]
  exact relUnless_result (relUnless_emptyLoop hrepl rfl List.length_replicate
    (Nat.zero_add _) (Nat.le_refl _) nofun hs)

/-- The path for patterns without magic gives what the general path gives. -/
theorem gsubPlainPattern_general (hsize : subject.length < 2 ^ 64) (hp : isPlain pattern = true)
    (hne : pattern ≠ []) (hs : InStep s t) :
    relUnless (GsubStop interrupt) (GsubStop interrupt)
      (gsubLuaPattern interrupt repl subject limit pattern)
      (gsubPlainPattern interrupt repl subject limit pattern)
      (fun r s r' t => r = r' ∧ s.world = t.world) s t := by
  have hplain : gsubPlainPattern interrupt repl subject limit pattern =
      (gsubPlainLoop interrupt repl subject limit pattern (subject.length + 1) 0 0 >>=
        copyRest subject) >>= fun count => do return ((← get).out, count) := by
    simp only [gsubPlainPattern, copyRest, bind_assoc, pure_bind]
  rw [gsubLuaPattern_eq, hplain]
  refine relUnless_result (relUnless_bind (relUnless_mono_ok
    (relUnless_plainLoop hrepl hsize hp hne rfl List.length_replicate (Nat.zero_le _) (by omega)
      (by omega) hs) ?_))
  rintro ⟨pos, count⟩ s _ t ⟨rfl, hpos, hs⟩
  exact (appends_copyRest hpos).relUnless (appends_copyRest hpos) hs fun _ _ h => ⟨rfl, h⟩

end Paths

end Dellingr
