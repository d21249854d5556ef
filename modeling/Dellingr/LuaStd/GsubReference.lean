import Dellingr.LuaStd.GsubPaths

/-!
# The general loop of `string.gsub`

The general loop gives what the loop of Lua 5.4 gives that goes through the subject position by
position (`gsubLuaPattern_reference`), unless a limit stops one of them, and it ends if the code that
is called for the matches ends (`ends_gsubLuaPattern`).

The loop of Lua is charged for the replacements alone. It copies the bytes between the matches one by
one, where the general loop copies them at once when it has found the next match.
-/

namespace Dellingr

open Effect Patterns

section Model

variable {ι ε : Type} (repl : Replacement ι ε) (subject : List UInt8)

/-- Take the steps of the loop of Lua, with `n` matches replaced so far. -/
def applyPieces : List Reference.Piece → Nat → Gsub ι ε Nat
  | [], n => return n
  | .copy bytes :: rest, n => do
    checkStringGrowth bytes.length
    extendOut bytes
    applyPieces rest n
  | .replace start stop captures :: rest, n => do
    appendGsubReplacement repl subject (seenCaptures start stop captures)
    applyPieces rest (n + 1)
  | .malformed e :: _, _ => fail (.pattern e)

/-- The result and the count of the loop of Lua. -/
def gsubReference (pieces : List Reference.Piece) : Gsub ι ε (List UInt8 × Nat) := do
  let n ← applyPieces repl subject pieces 0
  return ((← get).out, n)

end Model

section Reference

variable {ι ε : Type} {interrupt : Nat → Bool} {repl : Replacement ι ε} {subject pattern : List UInt8}
  {limit : Option Nat} {s t : GsubState ι} {pieces rest : List Reference.Piece}
  {runs : List (List UInt8)} {n : Nat}

/-- A limit stops a call of the general loop; a pattern may be too deep for the matcher. -/
def PatternStop (interrupt : Nat → Bool) (pattern : List UInt8) (e : GsubError ε)
    (s : GsubState ι) : Prop :=
  GsubStop interrupt e s ∨ e = .pattern .matchDepthExceeded ∧
    maxCCalls ≤ (compile pattern .honour).items.countP Item.deepens

/-- A limit stops the loop of Lua, which may find that the result is too long before the general
    loop does. -/
def ReferenceStop (interrupt : Nat → Bool) (e : GsubError ε) (s : GsubState ι) : Prop :=
  GsubStop interrupt e s ∨ e = .stringSizeExceeded

/-! ## Steps of the loop of Lua -/

theorem applyPieces_append :
    applyPieces repl subject (pieces ++ rest) n =
      applyPieces repl subject pieces n >>= fun n => applyPieces repl subject rest n := by
  induction pieces generalizing n with
  | nil => rw [applyPieces, pure_bind, List.nil_append]
  | cons piece pieces ih =>
    cases piece with
    | copy bytes => simp only [List.cons_append, applyPieces, bind_assoc, ih]
    | replace start stop captures => simp only [List.cons_append, applyPieces, bind_assoc, ih]
    | malformed e => rfl

theorem appends_copies (hs : s.out.length ≤ MAX_STRING_BYTES) :
    Appends interrupt runs.flatten n (applyPieces repl subject (runs.map .copy) n) s := by
  induction runs generalizing s with
  | nil => exact appends_pure hs
  | cons run runs ih =>
    rw [List.map_cons, applyPieces, List.flatten_cons, ← bind_assoc]
    exact (appends_checked appends_extendOut).bind fun s hs => ih hs

theorem copies_eq (bytes : List UInt8) :
    Reference.copies bytes = (bytes.map ([·])).map .copy := by
  rw [Reference.copies, List.map_map]
  rfl

/-- Bytes are copied one by one. -/
theorem appends_copies_bytes {bytes : List UInt8} (hs : s.out.length ≤ MAX_STRING_BYTES) :
    Appends interrupt bytes n (applyPieces repl subject (Reference.copies bytes) n) s := by
  have h := @appends_copies ι ε interrupt repl subject s (bytes.map ([·])) n hs
  rwa [← List.flatMap_def, List.flatMap_singleton', ← copies_eq] at h

theorem relUnless_patternStop {α β : Type} {m : Gsub ι ε α} {m' : Gsub ι ε β}
    {R : α → GsubState ι → β → GsubState ι → Prop}
    (h : relUnless (GsubStop interrupt) (GsubStop interrupt) m m' R s t) :
    relUnless (PatternStop interrupt pattern) (ReferenceStop interrupt) m m' R s t :=
  relUnless_mono h (fun _ _ => .inl) (fun _ _ => .inl) fun _ _ _ _ => id

/-- The bytes before a match are copied at once, or one by one. -/
theorem relUnless_copies {start stop : Nat} (h : start ≤ stop ∧ stop ≤ subject.length) (hs : InStep s t) :
    relUnless (PatternStop interrupt pattern) (ReferenceStop interrupt)
      (appendSubjectRange subject start stop)
      (applyPieces repl subject (Reference.copies ((subject.take stop).drop start)) n)
      (fun _ s c t => c = n ∧ InStep s t) s t :=
  relUnless_patternStop ((appends_range h).relUnless (appends_copies_bytes (hs.out ▸ hs.size)) hs
    fun _ _ h => ⟨rfl, h⟩)

variable {m : LuaPattern} {fuel fuel' pos : Nat} {last : Option Nat} {anchored : Bool} {p : List UInt8}

/-- From every position on the general loop replaces the matches that the loop of Lua replaces. -/
theorem relUnless_luaLoop (hrepl : repl.Steady interrupt)
    (hanchored : anchored = (pattern.head? == some (ascii '^')))
    (hp : p = if anchored then pattern.tail else pattern)
    (hm : m.compiled = compile pattern .honour) (hslots : m.slots.length = luaMaxCaptures)
    (hpos : pos ≤ subject.length) (hfuel : Reference.iterations subject pos last < fuel)
    (hfirst : anchored = true → last = none) (hlast : ∀ l ∈ last, l ≤ pos) (hs : InStep s t)
    (h : Reference.gsubLoop Reference.literalLone subject anchored p limit fuel' pos n last =
      some pieces) :
    relUnless (PatternStop interrupt pattern) (ReferenceStop interrupt)
      (gsubLuaLoop interrupt repl subject limit fuel m pos n last >>= copyRest subject)
      (applyPieces repl subject pieces n) (fun c s c' t => c = c' ∧ InStep s t) s t := by
  induction fuel generalizing fuel' m pos n last s t pieces with
  | zero => exact absurd hfuel (Nat.not_lt_zero _)
  | succ fuel ih =>
    have hsize : ∀ s t : GsubState ι, InStep s t → t.out.length ≤ MAX_STRING_BYTES :=
      fun s t h => h.out ▸ h.size
    have hcopy : ∀ {s t : GsubState ι} {pos n : Nat} {runs : List (List UInt8)}, InStep s t →
        pos ≤ subject.length → runs.flatten = subject.drop pos →
          relUnless (PatternStop interrupt pattern) (ReferenceStop interrupt)
            (copyRest subject (pos, n)) (applyPieces repl subject (runs.map .copy) n)
            (fun c s c' t => c = c' ∧ InStep s t) s t := by
      intro s t pos n runs hs hpos hruns
      refine relUnless_patternStop ?_
      exact (appends_copyRest hpos).relUnless (hruns ▸ appends_copies (hsize s t hs)) hs
        fun _ _ h => ⟨rfl, h⟩
    rw [gsubLuaLoop]
    by_cases hlimit : limit.any (· ≤ n) = true
    · obtain ⟨fuel', rfl⟩ : ∃ k, fuel' = k + 1 := Nat.exists_eq_succ_of_ne_zero fun h0 => by
        rw [h0] at h
        cases h
      rw [Reference.gsubLoop, if_pos hlimit] at h
      rw [if_pos hlimit, pure_bind, ← Option.some.inj h]
      exact hcopy hs hpos (List.flatten_singleton (l := subject.drop pos))
    rw [if_neg hlimit, bind_assoc]
    refine relUnless_search hm hslots hpos (fun e clock hlim => ?_) fun clock => ?_
    · cases e with
      | interrupted => exact .inl hlim
      | budgetExceeded => exact .inl hlim
      | pattern pe =>
        cases pe with
        | matchDepthExceeded => exact .inr ⟨rfl, hlim⟩
        | _ => exact hlim.elim
    have hfind : Reference.strFind Reference.literalLone subject pattern .honour pos =
        Reference.searchLoop Reference.literalLone subject anchored p (subject.length - pos) pos := by
      rw [hp, hanchored]
      rfl
    have hreaches := @Reference.searchLoop_reaches Reference.literalLone subject anchored p pos
      (subject.length - pos) (by omega)
    have hs' : InStep { s with clock } t := ⟨hs.out, hs.template, hs.world, hs.size⟩
    rw [hfind]
    rcases hloop : Reference.searchLoop Reference.literalLone subject anchored p
      (subject.length - pos) pos with e | _ | ⟨start, stop, caps⟩
    · rw [hloop] at hreaches
      obtain ⟨start, hreach, hmatch⟩ := hreaches
      rw [Reference.gsubLoop_malformed hreach hmatch hlimit h, applyPieces_append]
      rcases appends_copies_bytes (hsize s t hs) with ⟨e', t', hfail, he⟩ | ⟨-, clock', hok⟩ | ⟨-, t', hfail⟩
      · exact relUnless_stopped_right (run_bind_of_fail hfail) (.inl he)
      · exact relUnless_right hok relUnless_fail
      · exact relUnless_stopped_right (run_bind_of_fail hfail) (.inr rfl)
    · rw [hloop] at hreaches
      obtain ⟨start, hreach, hmatch, hend⟩ := hreaches
      obtain ⟨runs, rfl, hruns⟩ := Reference.gsubLoop_missed hreach hmatch hend hlimit h
      intro m
      exact hcopy hs' hpos hruns
    · rw [hloop] at hreaches
      obtain ⟨hreach, hmatch⟩ := hreaches
      intro m hreports
      obtain ⟨hle, hstop⟩ : start ≤ stop ∧ stop ≤ subject.length := hreports.within _ List.mem_cons_self
      simp only [Bool.not_true, Bool.false_eq_true, ↓reduceIte, demand_range hreports, pure_bind]
      by_cases hrejected : start = stop ∧ last = some stop
      · obtain ⟨rfl, hl⟩ := hrejected
        obtain rfl : start = pos := Nat.le_antisymm (hlast start hl) hreach.le
        cases anchored with
        | true => cases (hfirst rfl).symm.trans hl
        | false =>
          rw [if_pos ⟨rfl, hl⟩]
          rcases Reference.gsubLoop_rejected hmatch hl hlimit h with ⟨hge, rfl⟩ | ⟨fuel', rest, hlt, rfl, hrest⟩
          · rw [if_pos (Nat.le_antisymm hpos hge), pure_bind]
            exact hcopy hs' hpos List.flatten_singleton
          · rw [if_neg (Nat.ne_of_lt hlt), bind_assoc, applyPieces_append]
            refine relUnless_bind (relUnless_mono_ok
              (relUnless_copies ⟨Nat.le_succ start, hlt⟩ hs') ?_)
            rintro _ s₁ _ t₁ ⟨rfl, h₁⟩
            have hmeasure := Nat.lt_of_lt_of_le (Reference.iterations_next hlt) (Nat.le_of_lt_succ hfuel)
            exact ih hreports.compiled hreports.slots hlt hmeasure (by rintro ⟨⟩)
              (fun l hmem => Nat.le_succ_of_le (hlast l hmem)) h₁ hrest
      · have hne : last ≠ some stop := fun hl => hrejected ⟨by
          have := hlast stop hl
          have := hreach.le
          omega, hl⟩
        obtain ⟨fuel', rest, rfl, hrest⟩ := Reference.gsubLoop_found hreach hmatch hne hlimit h
        rw [if_neg hrejected, mapM_capture hreports, applyPieces_append]
        simp only [bind_assoc, pure_bind]
        refine relUnless_bind (relUnless_mono_ok
          (relUnless_copies ⟨hreach.le, hreach.within⟩ hs') ?_)
        rintro _ s₁ _ t₁ ⟨rfl, h₁⟩
        rw [applyPieces]
        refine relUnless_bind (relUnless_mono_ok (relUnless_patternStop
          (steady_appendGsubReplacement hrepl (List.cons_ne_nil _ _) hreports.within _ _ h₁)) ?_)
        rintro _ s₂ _ t₂ ⟨-, h₂⟩
        have hcompiled : m.compiled.anchored = anchored := by
          rw [hreports.compiled, hanchored]
          rfl
        rw [hcompiled]
        cases anchored with
        | true =>
          obtain rfl := Option.some.inj hrest
          rw [if_pos rfl, pure_bind]
          exact hcopy h₂ hstop List.flatten_singleton
        | false =>
          rw [if_neg Bool.false_ne_true]
          have hmeasure := Nat.lt_of_lt_of_le
            (Reference.iterations_match (Nat.le_trans hreach.le hle) hstop hne) (Nat.le_of_lt_succ hfuel)
          exact ih hreports.compiled hreports.slots hstop hmeasure (by rintro ⟨⟩)
            (fun l hmem => Nat.le_of_eq (Option.some.inj hmem).symm) h₂ hrest

/-- The general path gives what the loop of Lua gives. -/
theorem gsubLuaPattern_reference (hrepl : repl.Steady interrupt)
    (h : Reference.gsubPieces Reference.literalLone subject limit pattern = some pieces)
    (hs : InStep s t) :
    relUnless (PatternStop interrupt pattern) (ReferenceStop interrupt)
      (gsubLuaPattern interrupt repl subject limit pattern) (gsubReference repl subject pieces)
      (fun r s r' t => r = r' ∧ s.world = t.world) s t := by
  rw [gsubLuaPattern_eq, gsubReference]
  refine relUnless_bind (relUnless_mono_ok (relUnless_luaLoop hrepl rfl rfl rfl List.length_replicate
    (Nat.zero_le _) ?_ (fun _ => rfl) (by rintro _ ⟨⟩) hs h) ?_)
  · rw [Reference.iterations, if_neg (by rintro ⟨⟩)]
    omega
  · rintro c s _ t ⟨rfl, hs⟩
    exact .inr (.inr ⟨Prod.ext hs.out rfl, hs.world⟩)

/-! ## The general loop ends -/

/-- What keeps calls in step ends. -/
theorem Steady.ends {α : Type} {m : Gsub ι ε α} (h : Steady interrupt m)
    (hs : s.out.length ≤ MAX_STRING_BYTES) :
    ends m (fun _ s => s.out.length ≤ MAX_STRING_BYTES) s :=
  ends_mono (ends_of_relUnless (h s s ⟨rfl, rfl, rfl, hs⟩)) fun _ _ h => h.2.size

theorem ends_luaLoop (hrepl : repl.Steady interrupt) (hm : m.compiled = compile pattern .honour)
    (hslots : m.slots.length = luaMaxCaptures) (hpos : pos ≤ subject.length)
    (hfuel : Reference.iterations subject pos last < fuel) (hlast : ∀ l ∈ last, l ≤ pos)
    (hs : s.out.length ≤ MAX_STRING_BYTES) :
    ends (gsubLuaLoop interrupt repl subject limit fuel m pos n last)
      (fun r s => r.1 ≤ subject.length ∧ s.out.length ≤ MAX_STRING_BYTES) s := by
  induction fuel generalizing m pos n last s with
  | zero => exact absurd hfuel (Nat.not_lt_zero _)
  | succ fuel ih =>
    rw [gsubLuaLoop]
    split
    · exact ends_pure ⟨hpos, hs⟩
    refine ends_bind ?_
    have hanswers := @LuaPattern.matchesBytesFrom_answers m pattern subject .honour interrupt pos hm
      hslots hpos s.clock
    rw [Effect.ends, onClock]
    cases hr : m.matchesBytesFrom subject pos interrupt s.clock with
    | fail e clock => trivial
    | panic =>
      rw [hr] at hanswers
      exact hanswers
    | timeout =>
      rw [hr] at hanswers
      exact hanswers
    | ok r clock =>
      rw [hr] at hanswers
      rcases r with ⟨_ | _, m⟩
      · exact ⟨hpos, hs⟩
      obtain ⟨start, stop, caps, href, hreports⟩ := hanswers
      have hpos' := Reference.strFind_le hpos href
      obtain ⟨hle, hstop⟩ : start ≤ stop ∧ stop ≤ subject.length := hreports.within _ List.mem_cons_self
      simp only [Bool.not_true, Bool.false_eq_true, ↓reduceIte, demand_range hreports, pure_bind]
      split
      · rename_i hrejected
        obtain ⟨rfl, hl⟩ := hrejected
        obtain rfl : start = pos := Nat.le_antisymm (hlast start hl) hpos'
        split
        · exact ends_pure ⟨hpos, hs⟩
        · rename_i hend
          have hlt : start < subject.length := Nat.lt_of_le_of_ne hpos hend
          have hcopy := @steady_appendSubjectRange ι ε interrupt subject start (start + 1)
            ⟨Nat.le_succ start, hlt⟩
          refine ends_bind (ends_mono (hcopy.ends hs) fun _ s hs => ?_)
          exact ih hreports.compiled hreports.slots hlt
            (Nat.lt_of_lt_of_le (Reference.iterations_next hlt) (Nat.le_of_lt_succ hfuel))
            (fun l hmem => Nat.le_succ_of_le (hlast l hmem)) hs
      · rename_i hrejected
        have hne : last ≠ some stop := fun hl => hrejected ⟨by
          have := hlast stop hl
          omega, hl⟩
        have hcopy := @steady_appendSubjectRange ι ε interrupt subject pos start
          ⟨hpos', Nat.le_trans hle hstop⟩
        rw [mapM_capture hreports]
        refine ends_bind (ends_mono (hcopy.ends hs) fun _ s hs => ?_)
        rw [pure_bind]
        refine ends_bind (ends_mono ((steady_appendGsubReplacement hrepl (List.cons_ne_nil _ _)
          hreports.within).ends hs) fun _ s hs => ?_)
        split
        · exact ends_pure ⟨hstop, hs⟩
        · exact ih hreports.compiled hreports.slots hstop (Nat.lt_of_lt_of_le
            (Reference.iterations_match (Nat.le_trans hpos' hle) hstop hne) (Nat.le_of_lt_succ hfuel))
            (fun l hmem => Nat.le_of_eq (Option.some.inj hmem).symm) hs

/-- The general path ends, whatever the limits. -/
theorem ends_gsubLuaPattern (hrepl : repl.Steady interrupt) (hs : s.out.length ≤ MAX_STRING_BYTES) :
    ends (gsubLuaPattern interrupt repl subject limit pattern) (fun _ _ => True) s := by
  rw [gsubLuaPattern]
  refine ends_bind (ends_mono (ends_luaLoop hrepl rfl List.length_replicate (Nat.zero_le _) ?_ (by rintro _ ⟨⟩) hs)
    fun r s hr => ?_)
  · rw [Reference.iterations, if_neg (by rintro ⟨⟩)]
    omega
  · have hcopy := @steady_appendSubjectRange ι ε interrupt subject r.1 subject.length
      ⟨hr.1, Nat.le_refl _⟩
    exact ends_bind (ends_mono (hcopy.ends hr.2) fun _ _ _ => trivial)

end Reference

end Dellingr
