import Dellingr.LuaStd.FindPaths
import Dellingr.LuaStd.Replacement

/-!
# `string.gsub`

`string.gsub` replaces the matches of a pattern, as many as it is allowed to. It has a loop of its
own for the empty pattern (`gsubEmptyPattern`) and for patterns without magic (`gsubPlainPattern`),
and a general one (`gsubLuaPattern`). The three poll the interrupt and charge for the subject in
places of their own, so that a limit may stop one call earlier than another would be stopped.

Two calls are in step when they have the same result so far, the same template and the same world
(`InStep`). What is appended keeps two calls in step until a limit stops one of them (`Steady`), if
the code that is called for the matches does not depend on the accounting.
-/

namespace Dellingr

open Effect Patterns

section Model

variable {ι ε : Type} (interrupt : Nat → Bool) (repl : Replacement ι ε) (subject : List UInt8)
  (limit : Option Nat)

/-! ## The empty pattern -/

/-- Copy the byte at a position. -/
def gsubEmptyCopy (count i : Nat) : Gsub ι ε Nat := do
  if i < subject.length then appendSubjectRange subject i (i + 1)
  return count

/-- Replace the empty match at a position, and copy the byte after it. -/
def gsubEmptyStep (count i : Nat) : Gsub ι ε Nat := do
  onClock (pollInterrupt interrupt)
  if limit.all (count < ·) then
    appendGsubReplacement repl subject [.bytes i i]
    gsubEmptyCopy subject (count + 1) i
  else gsubEmptyCopy subject count i

def gsubEmptyPattern : Gsub ι ε (List UInt8 × Nat) := do
  let count ← (List.range' 0 (subject.length + 1)).foldlM (gsubEmptyStep interrupt repl subject limit) 0
  return ((← get).out, count)

/-! ## Patterns without magic -/

/-- Replace occurrences from a position on, until there are none or no more may be replaced. -/
def gsubPlainLoop (pattern : List UInt8) : Nat → Nat → Nat → Gsub ι ε (Nat × Nat)
  | 0, _, _ => timeout
  | fuel + 1, pos, count => do
    if pos < subject.length then
      if limit.any (· ≤ count) then return (pos, count)
      else
        match ← onClock (findSubslice interrupt subject pos pattern) with
        | none => return (pos, count)
        | some matchStart =>
          let start := pos + matchStart
          let stop := start + pattern.length
          appendSubjectRange subject pos start
          appendGsubReplacement repl subject [.bytes start stop]
          gsubPlainLoop pattern fuel stop (count + 1)
    else return (pos, count)

def gsubPlainPattern (pattern : List UInt8) : Gsub ι ε (List UInt8 × Nat) := do
  let (pos, count) ← gsubPlainLoop interrupt repl subject limit pattern (subject.length + 1) 0 0
  appendSubjectRange subject pos subject.length
  return ((← get).out, count)

/-! ## Patterns -/

/-- Replace matches from a position on. An empty match that ends where the last one ended is not
    replaced: a byte is copied instead. -/
def gsubLuaLoop : Nat → LuaPattern → Nat → Nat → Option Nat → Gsub ι ε (Nat × Nat)
  | 0, _, _, _, _ => timeout
  | fuel + 1, matcher, pos, count, lastmatch => do
    if limit.any (· ≤ count) then return (pos, count)
    else
      let (matched, matcher) ← onClock (matcher.matchesBytesFrom subject pos interrupt)
      if !matched then return (pos, count)
      else
        let (start, stop) ← demand matcher.range
        if start = stop ∧ lastmatch = some stop then
          if pos = subject.length then return (pos, count)
          else
            appendSubjectRange subject pos (pos + 1)
            gsubLuaLoop fuel matcher (pos + 1) count lastmatch
        else
          appendSubjectRange subject pos start
          let captures ← (List.range matcher.nMatch).mapM fun i => demand (matcher.capture i)
          appendGsubReplacement repl subject captures
          if matcher.compiled.anchored then return (stop, count + 1)
          else gsubLuaLoop fuel matcher stop (count + 1) (some stop)

def gsubLuaPattern (pattern : List UInt8) : Gsub ι ε (List UInt8 × Nat) := do
  let matcher := LuaPattern.fromCompiled (compile pattern .honour)
  let (pos, count) ←
    gsubLuaLoop interrupt repl subject limit (2 * subject.length + 2) matcher 0 0 none
  appendSubjectRange subject pos subject.length
  return ((← get).out, count)

/-! ## The call -/

/-- `string.gsub`, with the count given; a negative one replaces nothing. -/
def gsub (pattern : List UInt8) (n : Option Int) : Gsub ι ε (List UInt8 × Nat) := do
  let limit := n.map Int.toNat
  onClock (chargeOnce (max (subject.length + pattern.length) 1))
  onClock (chargeOnce (max pattern.length 1))
  if limit = some 0 then
    onClock (chargeOnce subject.length)
    return (subject, 0)
  else if pattern = [] then gsubEmptyPattern interrupt repl subject limit
  else if isPlain pattern then gsubPlainPattern interrupt repl subject limit pattern
  else gsubLuaPattern interrupt repl subject limit pattern

end Model

/-! ## Calls in step -/

section Steady

variable {ι ε α β : Type} {interrupt : Nat → Bool}

/-- A limit that stops a call: the interrupt was set at a poll, or the budget is exhausted. -/
def GsubError.Limit (interrupt : Nat → Bool) : GsubError ε → Clock → Prop
  | .interrupted, clock => ∃ poll < clock.polls, interrupt poll = true
  | .budgetExceeded, clock => clock.meter.Exhausted
  | _, _ => False

/-- A limit stops a call of `string.gsub`. -/
abbrev GsubStop (interrupt : Nat → Bool) (e : GsubError ε) (s : GsubState ι) : Prop :=
  e.Limit interrupt s.clock

/-- Calls with the same result so far, the same template and the same world. -/
structure InStep (s t : GsubState ι) : Prop where
  out : s.out = t.out
  template : s.template = t.template
  world : s.world = t.world
  size : s.out.length ≤ MAX_STRING_BYTES

/-- A computation keeps calls in step. -/
def Steady (interrupt : Nat → Bool) (m : Gsub ι ε α) : Prop :=
  ∀ s t, InStep s t → relUnless (GsubStop interrupt) (GsubStop interrupt) m m
    (fun a s b t => a = b ∧ InStep s t) s t

/-- Code of the host or of a script does the same whatever the accounting, unless a limit stops it. -/
def GsubHost.Steady (interrupt : Nat → Bool) (m : GsubHost ι ε α) : Prop :=
  ∀ world clock clock', relUnless (fun e s => e.Limit interrupt s.1) (fun e t => e.Limit interrupt t.1)
    m m (fun a s b t => a = b ∧ s.2 = t.2) (clock, world) (clock', world)

/-- What is called for a match does the same whatever the accounting. -/
def Replacement.Steady (interrupt : Nat → Bool) : Replacement ι ε → Prop
  | .string _ => True
  | .table lookup => ∀ key, GsubHost.Steady interrupt (lookup key)
  | .function call => ∀ args, GsubHost.Steady interrupt (call args)

/-! ## What keeps calls in step -/

variable {m : Gsub ι ε α} {f : α → Gsub ι ε β} {s t : GsubState ι} {n : Nat} {bytes : List UInt8}

theorem steady_pure (a : α) : Steady interrupt (pure a : Gsub ι ε α) :=
  fun _ _ h => relUnless_pure ⟨rfl, h⟩

theorem steady_fail (e : GsubError ε) : Steady interrupt (fail e : Gsub ι ε α) :=
  fun _ _ _ => relUnless_fail

theorem Steady.bind (h : Steady interrupt m) (hf : ∀ a, Steady interrupt (f a)) :
    Steady interrupt (m >>= f) := by
  intro s t hs
  refine relUnless_bind (relUnless_mono_ok (h s t hs) ?_)
  rintro a s' _ t' ⟨rfl, hs'⟩
  exact hf a s' t' hs'

theorem Steady.mapM {l : List α} {g : α → Gsub ι ε β} (h : ∀ a ∈ l, Steady interrupt (g a)) :
    Steady interrupt (l.mapM g) := by
  induction l with
  | nil => exact steady_pure []
  | cons a l ih =>
    rw [List.mapM_cons]
    refine (h a List.mem_cons_self).bind fun b => ?_
    exact (ih fun a ha => h a (List.mem_cons_of_mem _ ha)).bind fun bs => steady_pure _

/-! ### Scans -/

/-- A scan changes the accounting alone, or a limit stops it. -/
theorem onClock_ends {scan : Scan α} {found : α} (h : EndsWith interrupt found scan s.clock) :
    Stops (GsubStop interrupt) (onClock scan : Gsub ι ε α) s ∨
      ∃ clock, (onClock scan : Gsub ι ε α) s = .ok found { s with clock } := by
  rw [EndsWith] at h
  cases hr : scan s.clock with
  | ok a clock =>
    rw [hr] at h
    obtain rfl : a = found := h
    exact .inr ⟨clock, by rw [onClock, hr]⟩
  | fail e clock =>
    rw [hr] at h
    refine .inl ⟨.ofMatchError e, { s with clock }, by rw [onClock, hr], ?_⟩
    cases e with
    | pattern pe => exact h.elim
    | budgetExceeded => exact h
    | interrupted => exact h
  | panic =>
    rw [hr] at h
    exact h.elim
  | timeout =>
    rw [hr] at h
    exact h.elim

/-- A scan on the left goes on, or a limit stops it. -/
theorem relUnless_onClock_left {σ δ : Type} {S' : GsubError ε → σ → Prop} {scan : Scan α} {found : α}
    {f : α → Gsub ι ε β} {m' : Effect σ (GsubError ε) δ} {R : β → GsubState ι → δ → σ → Prop} {t : σ}
    (h : EndsWith interrupt found scan s.clock)
    (hf : ∀ clock, relUnless (GsubStop interrupt) S' (f found) m' R { s with clock } t) :
    relUnless (GsubStop interrupt) S' (onClock scan >>= f) m' R s t := by
  rcases onClock_ends h with hstop | ⟨clock, hok⟩
  · exact .inl hstop.bind
  · exact relUnless_left hok (hf clock)

/-- A scan on the right goes on, or a limit stops it. -/
theorem relUnless_onClock_right {σ δ : Type} {S : GsubError ε → σ → Prop} {scan : Scan α} {found : α}
    {f : α → Gsub ι ε β} {m' : Effect σ (GsubError ε) δ} {R : δ → σ → β → GsubState ι → Prop} {u : σ}
    (h : EndsWith interrupt found scan s.clock)
    (hf : ∀ clock, relUnless S (GsubStop interrupt) m' (f found) R u { s with clock }) :
    relUnless S (GsubStop interrupt) m' (onClock scan >>= f) R u s :=
  relUnless_symm (relUnless_onClock_left h fun clock => relUnless_symm (hf clock))

/-- A scan that ends in the same way whatever the accounting. -/
theorem Steady.scan {scan : Scan α} {found : α} {f : α → Gsub ι ε β}
    (h : ∀ clock, EndsWith interrupt found scan clock) (hf : Steady interrupt (f found)) :
    Steady interrupt (onClock scan >>= f) := by
  intro s t hs
  refine relUnless_onClock_left (h s.clock) fun clock => ?_
  refine relUnless_onClock_right (h t.clock) fun clock' => ?_
  exact hf { s with clock } { t with clock := clock' } ⟨hs.out, hs.template, hs.world, hs.size⟩

theorem endsWith_chargeOnce (n : Nat) (clock : Clock) :
    EndsWith interrupt () (chargeOnce n) clock := by
  rw [EndsWith, chargeOnce, run_get_bind]
  rcases clock.meter with _ | ⟨used, unit⟩ | ⟨remaining, used, unit⟩
  · rfl
  · rfl
  · rw [CostMeter.consume]
    by_cases hr : 0 < saturatingMul (.ofNat n) (CostMeter.finiteBudget remaining used unit).unit ∧
        remaining ≤ 0
    · rw [if_pos hr]
      exact ⟨_, _, _, rfl, hr.2⟩
    · rw [if_neg hr]
      rfl

theorem endsWith_chargeUnits {n : Nat} (hn : n < 2 ^ 64) (clock : Clock) :
    EndsWith interrupt () (chargeUnits n) clock := (simulates_chargeUnits hn).endsWith (wp_chargeEach n)

theorem endsWith_pollInterrupt (clock : Clock) :
    EndsWith interrupt () (pollInterrupt interrupt) clock := simulates_pollInterrupt.endsWith rfl

/-! ### Appending -/

theorem checkStringGrowth_ok (h : s.out.length + n ≤ MAX_STRING_BYTES) :
    (checkStringGrowth n : Gsub ι ε Unit) s = .ok () s := by
  rw [checkStringGrowth, run_get_bind, if_neg (Nat.not_lt.2 h)]
  rfl

theorem checkStringGrowth_fail (h : MAX_STRING_BYTES < s.out.length + n) :
    (checkStringGrowth n : Gsub ι ε Unit) s = .fail .stringSizeExceeded s := by
  rw [checkStringGrowth, run_get_bind, if_pos h]
  rfl

/-- The result is too long on both sides or on neither. -/
theorem relUnless_checked {m m' : Unit → Gsub ι ε α}
    {R : α → GsubState ι → α → GsubState ι → Prop} (h : InStep s t)
    (hm : s.out.length + n ≤ MAX_STRING_BYTES →
      relUnless (GsubStop interrupt) (GsubStop interrupt) (m ()) (m' ()) R s t) :
    relUnless (GsubStop interrupt) (GsubStop interrupt) (checkStringGrowth n >>= m)
      (checkStringGrowth n >>= m') R s t := by
  by_cases hle : s.out.length + n ≤ MAX_STRING_BYTES
  · refine relUnless_left (checkStringGrowth_ok hle) ?_
    exact relUnless_right (checkStringGrowth_ok (h.out ▸ hle)) (hm hle)
  · have hlt := Nat.lt_of_not_le hle
    refine .inr (.inr ?_)
    rw [run_bind_of_fail (checkStringGrowth_fail hlt),
      run_bind_of_fail (checkStringGrowth_fail (h.out ▸ hlt))]

/-- Append to both results. -/
theorem relUnless_extendOut (h : InStep s t) (hle : s.out.length + bytes.length ≤ MAX_STRING_BYTES) :
    relUnless (GsubStop interrupt) (GsubStop interrupt) (extendOut bytes : Gsub ι ε Unit)
      (extendOut bytes) (fun a s b t => a = b ∧ InStep s t) s t := by
  refine .inr (.inr ⟨rfl, ?_, h.template, h.world, ?_⟩)
  · show s.out ++ bytes = t.out ++ bytes
    rw [h.out]
  · show (s.out ++ bytes).length ≤ _
    rwa [List.length_append]

theorem steady_appendBytes (bytes : List UInt8) :
    Steady interrupt (appendBytes bytes : Gsub ι ε Unit) := by
  intro s t h
  refine relUnless_checked h fun hle => ?_
  refine relUnless_onClock_left (endsWith_chargeOnce _ _) fun clock => ?_
  refine relUnless_onClock_right (endsWith_chargeOnce _ _) fun clock' => ?_
  exact relUnless_extendOut ⟨h.out, h.template, h.world, h.size⟩ hle

variable {subject : List UInt8} {start stop : Nat}

theorem length_range (h : start ≤ stop ∧ stop ≤ subject.length) :
    ((subject.take stop).drop start).length = stop - start := by
  rw [List.length_drop, List.length_take_of_le h.2]

theorem steady_appendSubjectRange (h : start ≤ stop ∧ stop ≤ subject.length) :
    Steady interrupt (appendSubjectRange subject start stop : Gsub ι ε Unit) := by
  intro s t hs
  refine relUnless_checked hs fun hle => ?_
  refine relUnless_onClock_left (endsWith_chargeOnce _ _) fun clock => ?_
  refine relUnless_onClock_right (endsWith_chargeOnce _ _) fun clock' => ?_
  rw [require, if_pos h, pure_bind]
  exact relUnless_extendOut ⟨hs.out, hs.template, hs.world, hs.size⟩ ((length_range h).symm ▸ hle)

theorem steady_appendEach (bytes : List UInt8) :
    Steady interrupt (appendEach bytes : Gsub ι ε Unit) := by
  induction bytes with
  | nil => exact steady_pure ()
  | cons byte bytes ih => exact (steady_appendBytes _).bind fun _ => ih

theorem steady_appendBytesUnits (bytes : List UInt8) :
    Steady interrupt (appendBytesUnits bytes : Gsub ι ε Unit) := by
  intro s t h
  rw [appendBytesUnits]
  refine relUnless_get ?_
  rw [← h.out]
  refine relUnless_ite (fun _ => steady_appendEach bytes s t h) fun hle => ?_
  have hle' := Nat.le_of_not_lt hle
  have hn : bytes.length < 2 ^ 64 := by
    rw [MAX_STRING_BYTES] at hle'
    omega
  refine relUnless_onClock_left (endsWith_chargeUnits hn _) fun clock => ?_
  refine relUnless_onClock_right (endsWith_chargeUnits hn _) fun clock' => ?_
  exact relUnless_extendOut ⟨h.out, h.template, h.world, h.size⟩ hle'

theorem steady_appendCaptureBytes {capture : LuaCapture} (h : capture.Within subject.length) :
    Steady interrupt (appendCaptureBytes subject capture : Gsub ι ε Unit) := by
  cases capture with
  | bytes start stop => exact steady_appendSubjectRange h
  | position offset => exact steady_appendBytes _
  | unfinished => exact steady_fail _

/-! ### Replacements -/

variable {captures : List LuaCapture}

/-- A reference is to one of the captures, or it fails. -/
theorem replacementCapture_cases (hne : captures ≠ []) (index : Nat) :
    (∃ c ∈ captures, (replacementCapture captures index : Gsub ι ε LuaCapture) = pure c) ∨
      ∃ e, (replacementCapture captures index : Gsub ι ε LuaCapture) = fail e := by
  obtain ⟨whole, rest, rfl⟩ := List.exists_cons_of_ne_nil hne
  rw [replacementCapture]
  split
  · exact .inl ⟨whole, List.mem_cons_self, rfl⟩
  · cases hi : (whole :: rest)[index]? with
    | none => exact .inr ⟨_, rfl⟩
    | some c => exact .inl ⟨c, List.mem_of_getElem? hi, rfl⟩

theorem steady_appendSegments (hne : captures ≠ []) (hc : ∀ c ∈ captures, c.Within subject.length)
    (segments : List ReplSegment) :
    Steady interrupt (appendSegments subject captures segments : Gsub ι ε Unit) := by
  induction segments with
  | nil => exact steady_pure ()
  | cons segment segments ih =>
    cases segment with
    | literal bytes => exact (steady_appendBytesUnits bytes).bind fun _ => ih
    | invalidEscape => exact steady_fail _
    | capture index =>
      rw [appendSegments]
      rcases replacementCapture_cases hne index with ⟨c, hmem, hcapture⟩ | ⟨e, hcapture⟩
      · rw [hcapture, pure_bind]
        exact (steady_appendCaptureBytes (hc c hmem)).bind fun _ => ih
      · rw [hcapture]
        exact steady_fail e

theorem steady_appendTemplatedReplacement (hne : captures ≠ [])
    (hc : ∀ c ∈ captures, c.Within subject.length) (template : ReplTemplate) (first : Bool) :
    Steady interrupt (appendTemplatedReplacement template subject captures first : Gsub ι ε Unit) := by
  rw [appendTemplatedReplacement]
  cases first with
  | true => exact steady_appendSegments hne hc _
  | false => exact .scan (endsWith_chargeOnce _) (steady_appendSegments hne hc _)

/-- The bytes of captures are known, or a capture is not closed. -/
theorem closedBytes_cases (captures : List LuaCapture) :
    (∃ n, (closedBytes captures : Gsub ι ε Nat) = pure n) ∨
      ∃ e, (closedBytes captures : Gsub ι ε Nat) = fail e := by
  induction captures with
  | nil => exact .inl ⟨0, rfl⟩
  | cons c captures ih =>
    cases c with
    | unfinished => exact .inr ⟨_, rfl⟩
    | position offset => exact ih
    | bytes start stop =>
      rw [closedBytes]
      rcases ih with ⟨n, hn⟩ | ⟨e, he⟩
      · exact .inl ⟨_, by rw [hn, pure_bind]⟩
      · exact .inr ⟨e, by rw [he]; rfl⟩

theorem steady_preflightCaptures (captures : List LuaCapture) :
    Steady interrupt (preflightCaptures captures : Gsub ι ε Unit) := by
  rw [preflightCaptures]
  rcases closedBytes_cases captures with ⟨n, hn⟩ | ⟨e, he⟩
  · rw [hn, pure_bind, ← bind_pure (onClock (chargeOnce n))]
    exact .scan (endsWith_chargeOnce n) (steady_pure ())
  · rw [he]
    exact steady_fail e

theorem steady_pushCaptureValue (c : LuaCapture) :
    Steady interrupt (pushCaptureValue subject c : Gsub ι ε CaptureValue) := by
  cases c with
  | bytes start stop =>
    rw [pushCaptureValue]
    split
    · exact steady_pure _
    · exact steady_fail _
  | position offset => exact steady_pure _
  | unfinished => exact steady_fail _

theorem steady_onHost {m : GsubHost ι ε α} (h : GsubHost.Steady interrupt m) :
    Steady interrupt (onHost m) := by
  intro s t hs
  have hm := h s.world s.clock t.clock
  rcases hm with ⟨e, s', hl, he⟩ | ⟨e, t', hr, he⟩ | hm
  · exact .inl ⟨e, { s with clock := s'.1, world := s'.2 }, by rw [onHost, hl], he⟩
  · exact .inr (.inl ⟨e, { t with clock := t'.1, world := t'.2 },
      by rw [onHost, ← hs.world, hr], he⟩)
  · refine .inr (.inr ?_)
    rw [onHost, onHost, ← hs.world]
    cases hl : m (s.clock, s.world) <;> cases hr : m (t.clock, s.world) <;>
      simp only [hl, hr] at hm ⊢
    · exact ⟨hm.1, hs.out, hs.template, hm.2, hs.size⟩
    · exact hm

theorem steady_appendReplValue (hne : captures ≠ []) (hc : ∀ c ∈ captures, c.Within subject.length)
    (value : ReplValue) :
    Steady interrupt (appendReplValue subject captures value : Gsub ι ε Unit) := by
  obtain ⟨whole, rest, rfl⟩ := List.exists_cons_of_ne_nil hne
  cases value with
  | keepOriginal => exact steady_appendCaptureBytes (hc whole List.mem_cons_self)
  | bytes bytes => exact steady_appendBytes bytes
  | invalid => exact steady_fail _

/-- A replacement keeps calls in step. -/
theorem steady_appendGsubReplacement {repl : Replacement ι ε} (h : repl.Steady interrupt)
    (hne : captures ≠ []) (hc : ∀ c ∈ captures, c.Within subject.length) :
    Steady interrupt (appendGsubReplacement repl subject captures) := by
  cases repl with
  | string bytes =>
    intro s t hs
    rw [appendGsubReplacement]
    refine relUnless_get ?_
    rw [← hs.template]
    cases s.template with
    | some template => exact steady_appendTemplatedReplacement hne hc template false s t hs
    | none =>
      refine Steady.scan (endsWith_chargeOnce _) (fun s t hs => ?_) s t hs
      -- Both compile the same template.
      refine relUnless_modify ?_
      exact steady_appendTemplatedReplacement hne hc _ true _ _ ⟨hs.out, rfl, hs.world, hs.size⟩
  | table lookup =>
    have hkey : ∃ key, captures[if 1 < captures.length then 1 else 0]? = some key := by
      have hpos := List.length_pos_iff.2 hne
      exact ⟨_, List.getElem?_eq_getElem (by split <;> omega)⟩
    obtain ⟨key, hkey⟩ := hkey
    rw [appendGsubReplacement, hkey, demand, pure_bind]
    refine (steady_preflightCaptures _).bind fun _ => (steady_pushCaptureValue key).bind fun value => ?_
    exact (steady_onHost (h value)).bind fun value => steady_appendReplValue hne hc value
  | function call =>
    rw [appendGsubReplacement, require, if_pos hne, pure_bind]
    refine (steady_preflightCaptures _).bind fun _ => ?_
    refine (Steady.mapM fun c _ => steady_pushCaptureValue c).bind fun values => ?_
    exact (steady_onHost (h values)).bind fun value => steady_appendReplValue hne hc value

end Steady

end Dellingr
