import Dellingr.Patterns.ByteClasses

/-!
# What the compiler reads

The compiler reads a pattern item by item, and the reference does the same while it matches. What
stands at the cursor decides what both do: `Reads` has one constructor for each kind of item, with
the text of the item, the item that is compiled and the compiler after it.

* `compileItem_reads`: these are all the items there are;
* `Compiled`: the items compiled from a cursor to the end of the pattern, or to its first
  malformed point, where the last item fails (`compile_compiled`).

The anchor modes read a pattern alike but for a leading `^` (`compile_effective`), which is an
escaped `^` where it does not anchor (`compile_literal`).
-/

namespace Dellingr.Patterns

open Reference Compiler

/-! ## Items -/

/-- The byte of a character that a byte is compared with. -/
theorem eq_ascii {b : UInt8} {c : Char} (h : Char.ofNat b.toNat = c) : b = ascii c := by
  have hbyte : ∀ n < 256, ascii (Char.ofNat n) = .ofNat n := by decide +kernel
  rw [← h, hbyte b.toNat b.toNat_lt, UInt8.ofNat_toNat]

/-- A single byte, an escaped byte or a bracketed class starts here. -/
structure AtomStarts (byte : UInt8) (text : List UInt8) : Prop where
  opening : byte ≠ ascii '('
  closing : byte ≠ ascii ')'
  anchor : ¬(byte = ascii '$' ∧ text = [])
  escape : byte = lEsc → ∀ escaped rest, text = escaped :: rest →
    escaped ≠ ascii 'b' ∧ escaped ≠ ascii 'f' ∧ isAsciiDigit escaped = false

namespace Reference

variable {lone : UInt8 → Bool} {subject : List UInt8} {fuel s : Nat} {caps : List Capture}
  {rest : List UInt8} {byte : UInt8}

/-! ### The items of the reference -/

theorem doMatch_position (hn : caps.length ≠ luaMaxCaptures) :
    doMatch lone subject (fuel + 1) (ascii '(' :: ascii ')' :: rest) s caps =
      doMatch lone subject fuel rest s (caps ++ [⟨s, .position⟩]) := by
  conv_lhs => unfold doMatch
  rw [if_pos rfl, if_neg hn]
  exact if_pos rfl

theorem doMatch_start (hn : caps.length ≠ luaMaxCaptures) (hp : rest.head? ≠ some (ascii ')')) :
    doMatch lone subject (fuel + 1) (ascii '(' :: rest) s caps =
      doMatch lone subject fuel rest s (caps ++ [⟨s, .unfinished⟩]) := by
  conv_lhs => unfold doMatch
  rw [if_pos rfl, if_neg hn]
  exact if_neg hp

theorem doMatch_finish {l : Nat} (hl : captureToClose caps caps.length = some l) :
    doMatch lone subject (fuel + 1) (ascii ')' :: rest) s caps =
      doMatch lone subject fuel rest s
        (caps.modify l fun capture => { capture with len := .len (s - capture.init) }) := by
  conv_lhs => unfold doMatch
  rw [if_neg (by decide), if_pos rfl, hl]

/-- What follows an escape byte. -/
theorem doMatch_escape {escaped : UInt8} :
    doMatch lone subject (fuel + 1) (lEsc :: escaped :: rest) s caps =
      if escaped = ascii 'b' then
        match rest with
        | opening :: closing :: rest' =>
          match matchBalance subject opening closing s with
          | some s' => doMatch lone subject fuel rest' s' caps
          | none => .ok none
        | _ => .error (.malformedPattern .missingBalancedArguments)
      else if escaped = ascii 'f' then
        if rest.head? = some (ascii '[') then
          match bracketItem lone rest.tail with
          | .error e => .error e
          | .ok (test, ep) =>
            if atFrontier subject test s then doMatch lone subject fuel ep s caps else .ok none
        else .error (.malformedPattern .missingFrontierBracket)
      else if isAsciiDigit escaped then
        match checkCapture escaped caps with
        | .error e => .error e
        | .ok capture =>
          match matchCapture subject capture s with
          | some s' => doMatch lone subject fuel rest s' caps
          | none => .ok none
      else matchDefault lone subject lEsc (escaped :: rest) s fun p s =>
        doMatch lone subject fuel p s caps := by
  conv_lhs => unfold doMatch
  rw [if_neg (by decide), if_neg (by decide), if_neg fun h => absurd h.1 (by decide)]
  rfl

theorem doMatch_balance {opening closing : UInt8} :
    doMatch lone subject (fuel + 1) (lEsc :: ascii 'b' :: opening :: closing :: rest) s caps =
      match matchBalance subject opening closing s with
      | some s' => doMatch lone subject fuel rest s' caps
      | none => .ok none := by
  rw [doMatch_escape]
  exact if_pos rfl

theorem doMatch_frontier {text : List UInt8} {test : UInt8 → Bool}
    (hb : bracketItem lone text = .ok (test, rest)) :
    doMatch lone subject (fuel + 1) (lEsc :: ascii 'f' :: ascii '[' :: text) s caps =
      if atFrontier subject test s then doMatch lone subject fuel rest s caps else .ok none := by
  rw [doMatch_escape, if_neg (by decide), if_pos rfl]
  refine (if_pos rfl).trans ?_
  simp only [List.tail_cons, hb]

theorem doMatch_digit {digit : UInt8} (hd : isAsciiDigit digit = true) :
    doMatch lone subject (fuel + 1) (lEsc :: digit :: rest) s caps =
      match checkCapture digit caps with
      | .error e => .error e
      | .ok capture =>
        match matchCapture subject capture s with
        | some s' => doMatch lone subject fuel rest s' caps
        | none => .ok none := by
  have hne : ∀ c, isAsciiDigit c = false → digit ≠ c := by
    rintro c hc rfl
    exact nomatch hc.symm.trans hd
  rw [doMatch_escape, if_neg (hne _ rfl), if_neg (hne _ rfl), if_pos hd]

theorem doMatch_endAnchor :
    doMatch lone subject (fuel + 1) [ascii '$'] s caps =
      .ok (if s = subject.length then some (s, caps) else none) := by
  rw [doMatch, if_neg (by decide), if_neg (by decide), if_pos ⟨rfl, rfl⟩]

theorem doMatch_atom (h : AtomStarts byte rest) :
    doMatch lone subject (fuel + 1) (byte :: rest) s caps =
      matchDefault lone subject byte rest s fun p s => doMatch lone subject fuel p s caps := by
  by_cases hesc : byte = lEsc
  · subst hesc
    cases rest with
    | nil =>
      -- Nothing is escaped.
      conv_lhs => unfold doMatch
      rw [if_neg (by decide), if_neg (by decide), if_neg fun h => absurd h.1 (by decide), if_pos rfl]
      rfl
    | cons escaped rest' =>
      obtain ⟨hb, hf, hd⟩ := h.escape rfl escaped rest' rfl
      rw [doMatch_escape, if_neg hb, if_neg hf, hd]
      rfl
  · conv_lhs => unfold doMatch
    rw [if_neg h.opening, if_neg h.closing, if_neg h.anchor, if_neg hesc]

theorem repeatSuffix_eq (rest : List UInt8) :
    repeatSuffix rest =
      if rest.head? = some (ascii '?') then .optional
      else if rest.head? = some (ascii '*') then .zeroOrMoreGreedy
      else if rest.head? = some (ascii '+') then .oneOrMoreGreedy
      else if rest.head? = some (ascii '-') then .zeroOrMoreMinimal
      else .one := by
  have hbyte : ∀ n < 256, repeatSuffix [.ofNat n] =
      if some (UInt8.ofNat n) = some (ascii '?') then .optional
      else if some (UInt8.ofNat n) = some (ascii '*') then .zeroOrMoreGreedy
      else if some (UInt8.ofNat n) = some (ascii '+') then .oneOrMoreGreedy
      else if some (UInt8.ofNat n) = some (ascii '-') then .zeroOrMoreMinimal
      else .one := by decide +kernel
  cases rest with
  | nil => rfl
  | cons b rest =>
    have := hbyte b.toNat b.toNat_lt
    rwa [UInt8.ofNat_toNat] at this

/-- An item of a single byte, by its repetition. -/
theorem matchDefault_eq {test : UInt8 → Bool} {k : List UInt8 → Nat → Result} {text : List UInt8}
    (hs : singleItem lone byte text = .ok (test, rest)) :
    matchDefault lone subject byte text s k =
      match repeatSuffix rest with
      | .one => if subject[s]?.any test then k rest (s + 1) else .ok none
      | .optional =>
        if subject[s]?.any test then
          match k rest.tail (s + 1) with
          | .ok none => k rest.tail s
          | r => r
        else k rest.tail s
      | .zeroOrMoreGreedy =>
        if subject[s]?.any test then maxExpand subject test (k rest.tail) s else k rest.tail s
      | .oneOrMoreGreedy =>
        if subject[s]?.any test then maxExpand subject test (k rest.tail) (s + 1) else .ok none
      | .zeroOrMoreMinimal =>
        if subject[s]?.any test then minExpand subject test (k rest.tail) s else k rest.tail s := by
  have hdiff : some (ascii '*') ≠ some (ascii '?') ∧ some (ascii '*') ≠ some (ascii '+') ∧
      some (ascii '+') ≠ some (ascii '?') ∧ some (ascii '+') ≠ some (ascii '*') ∧
      some (ascii '+') ≠ some (ascii '-') ∧ some (ascii '-') ≠ some (ascii '?') ∧
      some (ascii '-') ≠ some (ascii '+') ∧ some (ascii '-') ≠ some (ascii '*') := by decide
  obtain ⟨h₁, h₂, h₃, h₄, h₅, h₆, h₇, h₈⟩ := hdiff
  rw [matchDefault, hs, repeatSuffix_eq]
  by_cases hq : rest.head? = some (ascii '?')
  · dsimp only
    rw [if_pos hq, if_pos hq]
    refine if_congr Iff.rfl rfl ?_
    rw [if_pos (.inr (.inl hq))]
  by_cases hstar : rest.head? = some (ascii '*')
  · simp only [hstar, ↓reduceIte, true_or, if_neg h₁, if_neg h₂]
  by_cases hplus : rest.head? = some (ascii '+')
  · simp only [hplus, ↓reduceIte, h₃, h₄, h₅, or_self]
  by_cases hminus : rest.head? = some (ascii '-')
  · simp only [hminus, ↓reduceIte, or_true, if_neg h₆, if_neg h₇, if_neg h₈]
  · simp only [hq, hstar, hplus, hminus, ↓reduceIte, or_self]

end Reference

/-- The item at the cursor, and the compiler after it. -/
inductive Reads (c : Compiler) : Item → Compiler → Prop
  | position {rest : List UInt8} (hr : c.rest = ascii '(' :: ascii ')' :: rest)
      (hn : c.captures ≠ luaMaxCaptures) :
      Reads c (.positionCapture c.captures)
        ({ c with rest, captures := c.captures + 1 }.push (.positionCapture c.captures))
  | start {rest : List UInt8} (hr : c.rest = ascii '(' :: rest)
      (hp : rest.head? ≠ some (ascii ')')) (hn : c.captures ≠ luaMaxCaptures) :
      Reads c (.captureStart c.captures)
        ({ c with
            rest, captureStack := c.captures :: c.captureStack,
            captures := c.captures + 1 }.push (.captureStart c.captures))
  | finish {rest : List UInt8} {slot : Nat} {stack : List Nat} (hr : c.rest = ascii ')' :: rest)
      (hs : c.captureStack = slot :: stack) :
      Reads c (.captureEnd slot) ({ c with rest, captureStack := stack }.push (.captureEnd slot))
  | balance {opening closing : UInt8} {rest : List UInt8}
      (hr : c.rest = lEsc :: ascii 'b' :: opening :: closing :: rest) :
      Reads c (.balance opening closing) ({ c with rest }.push (.balance opening closing))
  | frontier {text rest : List UInt8} {cls : ByteClass}
      (hr : c.rest = lEsc :: ascii 'f' :: ascii '[' :: text)
      (hb : bracketClass text = .ok (cls, rest)) :
      Reads c (.frontier ({ c with rest }.internClass cls).1)
        (({ c with rest }.internClass cls).2.push (.frontier ({ c with rest }.internClass cls).1))
  | backref {digit : UInt8} {rest : List UInt8} {slot : Nat} (hr : c.rest = lEsc :: digit :: rest)
      (hd : isAsciiDigit digit = true) (hi : (digit.toNat : Int) - (ascii '1').toNat = slot)
      (hlt : slot < c.captures) (hs : slot ∉ c.captureStack) :
      Reads c (.backref slot) ({ c with rest }.push (.backref slot))
  | endAnchor (hr : c.rest = [ascii '$']) : Reads c .endAnchor ({ c with rest := [] }.push .endAnchor)
  | atom {byte : UInt8} {text rest : List UInt8} {cls : ByteClass} (hr : c.rest = byte :: text)
      (ha : AtomStarts byte text) (hs : singleItem literalLone byte text = .ok (cls.contains, rest)) :
      Reads c (.atom ({ c with rest }.internClass cls).1 (repeatSuffix rest))
        ({ c with rest }.pushAtom cls)

variable {c c' : Compiler} {byte : UInt8} {text : List UInt8} {item : Item}

/-- An escape is read. -/
theorem compileEscape_reads {escaped : UInt8} {rest : List UInt8} (hr : c.rest = lEsc :: escaped :: rest)
    (h : compileEscape escaped { c with rest } = .ok c') : ∃ item, Reads c item c' := by
  rw [compileEscape] at h
  split at h
  · rename_i hb
    subst hb
    split at h
    · rename_i opening closing rest' hrest
      cases h
      exact ⟨_, .balance (by rw [hr, show rest = _ from hrest])⟩
    · cases h
  rename_i hb
  split at h
  · rename_i hf
    subst hf
    split at h
    · rename_i hbracket
      split at h
      · cases h
      · rename_i cls rest' hclass
        cases h
        obtain ⟨text, rfl⟩ : ∃ text, rest = ascii '[' :: text := List.head?_eq_some_iff.1 hbracket
        exact ⟨_, .frontier hr hclass⟩
    · cases h
  rename_i hf
  split at h
  · rename_i hd
    simp only at h
    split at h
    · rename_i hslot
      cases h
      obtain ⟨hle, hlt, hs⟩ := hslot
      exact ⟨_, .backref hr hd (Int.toNat_of_nonneg hle).symm hlt hs⟩
    · cases h
  · rename_i hd
    cases h
    refine ⟨_, @Reads.atom c _ _ _ (escapeClass escaped) hr ⟨by decide, by decide, ?_, ?_⟩ ?_⟩
    · rintro ⟨h, -⟩
      exact absurd h (by decide)
    · rintro - _ _ ⟨⟩
      exact ⟨hb, hf, Bool.eq_false_iff.2 hd⟩
    · rw [singleItem, if_pos rfl]
      simp only [Except.ok.injEq, Prod.mk.injEq, and_true]
      funext x
      exact contains_escapeClass.symm

/-- What is compiled is read. -/
theorem compileItem_reads (hr : c.rest = byte :: text)
    (h : compileItem byte { c with rest := text } = .ok c') : ∃ item, Reads c item c' := by
  rw [compileItem] at h
  split at h
  · rename_i hch
    obtain rfl := eq_ascii hch
    split at h
    · cases h
    · rename_i hn
      simp only at h
      split at h
      · rename_i hp
        cases h
        obtain ⟨rest, rfl⟩ : ∃ rest, text = ascii ')' :: rest := List.head?_eq_some_iff.1 hp
        exact ⟨_, .position hr hn⟩
      · rename_i hp
        cases h
        exact ⟨_, .start hr hp hn⟩
  · rename_i hch
    obtain rfl := eq_ascii hch
    split at h
    · cases h
    · rename_i slot stack hs
      cases h
      exact ⟨_, .finish hr hs⟩
  · rename_i hch
    obtain rfl := eq_ascii hch
    split at h
    · cases h
    · rename_i escaped rest hrest
      obtain rfl : text = escaped :: rest := hrest
      exact compileEscape_reads hr h
  · rename_i hch
    obtain rfl := eq_ascii hch
    split at h
    · cases h
    · rename_i cls rest hb
      cases h
      refine ⟨_, @Reads.atom c _ _ _ cls hr ⟨by decide, by decide, ?_, fun h => absurd h (by decide)⟩ ?_⟩
      · rintro ⟨h, -⟩
        exact absurd h (by decide)
      · unfold singleItem
        rw [if_neg (by decide), if_pos rfl]
        exact bracketItem_of_bracketClass hb
  · rename_i hch
    obtain rfl := eq_ascii hch
    cases h
    refine ⟨_, @Reads.atom c _ _ _ ByteClass.empty.invert hr
      ⟨by decide, by decide, ?_, fun h => absurd h (by decide)⟩ ?_⟩
    · rintro ⟨h, -⟩
      exact absurd h (by decide)
    · unfold singleItem
      rw [if_neg (by decide), if_neg (by decide), if_pos rfl]
      have htest : ByteClass.empty.invert.contains = fun _ => true := by
        funext x
        rw [ByteClass.contains_invert, ByteClass.contains_empty, Bool.not_false]
      rw [htest]
  · rename_i hopen hclose hesc hbracket hdot
    have hne : ∀ ch : Char, Char.ofNat byte.toNat ≠ ch → Char.ofNat (ascii ch).toNat = ch →
        byte ≠ ascii ch := fun ch h he hb => h (by rw [hb, he])
    split at h
    · rename_i hend
      cases h
      obtain ⟨rfl, htext⟩ := hend
      obtain rfl : text = [] := htext
      exact ⟨_, .endAnchor hr⟩
    · rename_i hend
      cases h
      refine ⟨_, @Reads.atom c _ _ _ (ByteClass.empty.insert byte) hr ⟨hne _ hopen (by decide),
        hne _ hclose (by decide), hend, fun h => absurd h (hne _ hesc (by decide))⟩ ?_⟩
      have hb : byte ≠ lEsc := hne _ hesc (by decide)
      have htest : (ByteClass.empty.insert byte).contains = fun c => byte == c := by
        funext x
        rw [ByteClass.contains_insert, ByteClass.contains_empty, Bool.false_or]
      unfold singleItem
      rw [if_neg hb, if_neg (hne _ hbracket (by decide)), if_neg (hne _ hdot (by decide)), htest]

namespace Reads

/-- The class of an interned place is among the classes, which were there before or are added. -/
theorem internClass_get (cls : ByteClass) (c : Compiler) :
    c.classes <+: (c.internClass cls).2.classes ∧
      (c.internClass cls).2.classes[(c.internClass cls).1]? = some cls ∧
      (c.internClass cls).2.items = c.items ∧ (c.internClass cls).2.rest = c.rest ∧
      (c.internClass cls).2.captures = c.captures ∧
      (c.internClass cls).2.captureStack = c.captureStack := by
  rw [internClass]
  split
  · rename_i id hid
    obtain ⟨hlt, hcls, -⟩ := List.findIdx?_eq_some_iff_getElem.1 hid
    refine ⟨List.prefix_refl _, ?_, rfl, rfl, rfl, rfl⟩
    rw [List.getElem?_eq_getElem hlt, beq_iff_eq.1 hcls]
  · exact ⟨List.prefix_append _ _, by simp, rfl, rfl, rfl, rfl⟩

/-- The item is added to those compiled before. -/
theorem items (h : Reads c item c') : c'.items = c.items ++ [item] := by
  cases h with
  | frontier hr hb =>
    rename_i rest cls
    rw [push, (internClass_get cls { c with rest }).2.2.1]
  | atom hr ha hs =>
    rename_i rest cls
    obtain ⟨-, -, hitems, hrest, -, -⟩ := internClass_get cls { c with rest }
    simp only [pushAtom, push, hitems, hrest]
  | _ => rfl

/-- Classes are only added. -/
theorem classes (h : Reads c item c') : c.classes <+: c'.classes := by
  cases h with
  | frontier hr hb =>
    rename_i rest cls
    exact (internClass_get cls { c with rest }).1
  | atom hr ha hs =>
    rename_i rest cls
    exact (internClass_get cls { c with rest }).1
  | _ => exact List.prefix_refl _

/-- Captures are only started. -/
theorem captures_le (h : Reads c item c') : c.captures ≤ c'.captures := by
  cases h with
  | position | start => exact Nat.le_succ _
  | @frontier _ rest cls hr hb =>
    exact Nat.le_of_eq (internClass_get cls { c with rest }).2.2.2.2.1.symm
  | @atom _ _ rest cls hr ha hs =>
    exact Nat.le_of_eq (internClass_get cls { c with rest }).2.2.2.2.1.symm
  | _ => exact Nat.le_refl _

/-- A capture that was started before is open only if it was. -/
theorem open_of_open {slot : Nat} (h : Reads c item c') (hlt : slot < c.captures)
    (hopen : slot ∈ c'.captureStack) : slot ∈ c.captureStack := by
  cases h with
  | start hr hp hn =>
    rcases List.mem_cons.1 hopen with rfl | hmem
    · exact absurd hlt (Nat.lt_irrefl _)
    · exact hmem
  | finish hr hs =>
    rw [hs]
    exact List.mem_cons_of_mem _ hopen
  | @frontier _ rest cls hr hb =>
    exact (internClass_get cls { c with rest }).2.2.2.2.2 ▸ hopen
  | @atom _ _ rest cls hr ha hs =>
    exact (internClass_get cls { c with rest }).2.2.2.2.2 ▸ hopen
  | _ => exact hopen

/-- A capture is closed while it is open. -/
theorem open_of_closes {slot : Nat} (h : Reads c (.captureEnd slot) c') :
    slot ∈ c.captureStack := by
  cases h with
  | finish hr hs =>
    rw [hs]
    exact List.mem_cons_self

/-- The open captures have been started, the inner ones last. -/
structure Nested (c : Compiler) : Prop where
  below : ∀ slot ∈ c.captureStack, slot < c.captures
  inner : c.captureStack.Pairwise fun slot outer => outer < slot

theorem Nested.of_same (h : Nested c) (hn : c'.captures = c.captures)
    (hs : c'.captureStack = c.captureStack) : Nested c' := by
  obtain ⟨hbelow, hinner⟩ := h
  rw [← hs] at hbelow hinner
  exact ⟨fun slot hm => Nat.lt_of_lt_of_eq (hbelow slot hm) hn.symm, hinner⟩

theorem nested (h : Reads c item c') (hc : Nested c) : Nested c' := by
  cases h with
  | position hr hn => exact ⟨fun slot hs => Nat.lt_succ_of_lt (hc.below slot hs), hc.inner⟩
  | start hr hp hn =>
    refine ⟨fun slot hs => ?_, List.pairwise_cons.2 ⟨hc.below, hc.inner⟩⟩
    rcases List.mem_cons.1 hs with rfl | hs
    · exact Nat.lt_succ_self _
    · exact Nat.lt_succ_of_lt (hc.below slot hs)
  | @finish _ slot stack hr hs =>
    obtain ⟨hbelow, hinner⟩ := hc
    rw [hs] at hbelow hinner
    exact ⟨fun slot hm => hbelow slot (List.mem_cons_of_mem _ hm), (List.pairwise_cons.1 hinner).2⟩
  | @frontier _ rest cls hr hb =>
    obtain ⟨-, -, -, -, hn, hs⟩ := internClass_get cls { c with rest }
    exact hc.of_same hn hs
  | @atom _ _ rest cls hr ha hs =>
    obtain ⟨-, -, -, -, hn, hs⟩ := internClass_get cls { c with rest }
    exact hc.of_same hn hs
  | balance | backref | endAnchor => exact ⟨hc.below, hc.inner⟩

theorem pushAtom_rest (cls : ByteClass) (c : Compiler) :
    (c.pushAtom cls).rest = if repeatSuffix c.rest = .one then c.rest else c.rest.tail := by
  simp only [pushAtom, push, (internClass_get cls c).2.2.2.1]

theorem singleItem_rest {rest : List UInt8} {test : UInt8 → Bool}
    (h : singleItem literalLone byte text = .ok (test, rest)) : rest.length ≤ text.length := by
  unfold singleItem at h
  split at h
  · split at h
    · cases h
    · cases h
      exact Nat.le_succ _
  split at h
  · rw [bracketItem_eq] at h
    cases hb : bracketClass text with
    | error e =>
      rw [hb] at h
      cases h
    | ok r =>
      rw [hb] at h
      cases h
      exact bracketClass_rest hb
  split at h
  · cases h
    exact Nat.le_refl _
  · cases h
    exact Nat.le_refl _

/-- The cursor moves on. -/
theorem rest_lt (h : Reads c item c') : c'.rest.length < c.rest.length := by
  cases h with
  | @frontier text rest cls hr hb =>
    have hlt : rest.length ≤ text.length := bracketClass_rest hb
    rw [push, (internClass_get cls { c with rest }).2.2.2.1, hr]
    simp only [List.length_cons]
    omega
  | @atom byte text rest cls hr ha hs =>
    have hlt := singleItem_rest hs
    rw [pushAtom_rest, hr, List.length_cons]
    split
    · exact Nat.lt_succ_of_le hlt
    · rw [List.length_tail]
      show rest.length - 1 < _
      omega
  | position hr | start hr | finish hr | balance hr | backref hr | endAnchor hr =>
    rw [push, hr]
    simp only [List.length_cons, List.length_nil]
    omega

/-- An item has text. -/
theorem rest_ne_nil (h : Reads c item c') : c.rest ≠ [] := by
  cases h with
  | position hr | start hr | finish hr | balance hr | frontier hr | backref hr | endAnchor hr | atom hr =>
    rw [hr]
    exact List.cons_ne_nil _ _

end Reads

/-! ## Whole patterns -/

/-- The items compiled from a cursor on, with the classes and the captures of the pattern. -/
inductive Compiled (classes : List ByteClass) (captures : Nat) : Compiler → List Item → Prop
  | nil {c : Compiler} (hr : c.rest = []) (hn : c.captures = captures) :
      Compiled classes captures c []
  | fail {c : Compiler} {byte : UInt8} {text : List UInt8} {e : PatternError}
      (hr : c.rest = byte :: text) (he : compileItem byte { c with rest := text } = .error e) :
      Compiled classes captures c [.fail e]
  | cons {c c' : Compiler} {item : Item} {items : List Item} (h : Reads c item c')
      (hc : c'.classes <+: classes) (ht : Compiled classes captures c' items) :
      Compiled classes captures c (item :: items)

/-- Nothing is compiled from the end of a pattern. -/
theorem Compiled.nil_of_rest {classes : List ByteClass} {captures : Nat} {items : List Item}
    (h : Compiled classes captures c items) (hr : c.rest = []) : items = [] ∧ c.captures = captures := by
  cases h with
  | nil _ hn => exact ⟨rfl, hn⟩
  | fail hr' =>
    rw [hr] at hr'
    cases hr'
  | cons hread => exact absurd hr hread.rest_ne_nil

/-- The captures that items close, of those started before, are open. -/
theorem Compiled.open_of_mem {classes : List ByteClass} {captures slot : Nat} {items : List Item}
    (h : Compiled classes captures c items) (hm : .captureEnd slot ∈ items)
    (hlt : slot < c.captures) : slot ∈ c.captureStack := by
  induction h with
  | nil => cases hm
  | fail => cases List.mem_singleton.1 hm
  | cons hread _ _ ih =>
    rcases List.mem_cons.1 hm with rfl | hm
    · exact hread.open_of_closes
    · exact hread.open_of_open hlt (ih hm (Nat.lt_of_lt_of_le hlt hread.captures_le))

theorem compiled_compileItems (c : Compiler) :
    c.classes <+: (compileItems c).2.classes ∧
    ∃ items, (compileItems c).2.items = c.items ++ items ∧
      Compiled (compileItems c).2.classes (compileItems c).2.captures c
        (match (compileItems c).1 with
          | .ok () => items
          | .error e => items ++ [.fail e]) := by
  fun_induction compileItems c with
  | case1 c hr => exact ⟨List.prefix_refl _, [], by simp, .nil hr rfl⟩
  | case2 c byte text hr e he => exact ⟨List.prefix_refl _, [], by simp, .fail hr he⟩
  | case3 c byte text hr c' hc' ih =>
    obtain ⟨item, hread⟩ := compileItem_reads hr hc'
    obtain ⟨hpre, items, hitems, hcomp⟩ := ih
    refine ⟨hread.classes.trans hpre, item :: items, ?_, ?_⟩
    · rw [hitems, hread.items, List.append_assoc]
      rfl
    · have hcons := Compiled.cons hread hpre hcomp
      cases hr : (compileItems c').1 with
      | ok =>
        rw [hr] at hcons
        exact hcons
      | error e =>
        rw [hr] at hcons
        exact hcons

/-- The text the compiler of a pattern reads. -/
def compiledText (pattern : List UInt8) (mode : AnchorMode) : List UInt8 :=
  if mode == .honour && pattern.head? == some (ascii '^') then pattern.tail else pattern

/-- A compiled pattern is what is read from its text. -/
theorem compile_compiled (pattern : List UInt8) (mode : AnchorMode) :
    Compiled (compile pattern mode).classes (compile pattern mode).captures
      (Compiler.new (compiledText pattern mode)) (compile pattern mode).items := by
  obtain ⟨-, items, hitems, hcomp⟩ := compiled_compileItems (Compiler.new (compiledText pattern mode))
  rcases hrun : compileItems (Compiler.new (compiledText pattern mode)) with ⟨r, c⟩
  rw [hrun] at hitems hcomp
  have hnil : c.items = items := hitems
  rw [compiledText] at hrun
  cases r with
  | ok =>
    simp only [compile, hrun, hnil]
    exact hcomp
  | error e =>
    simp only [compile, hrun, push, hnil]
    exact hcomp

/-! ## Anchor modes -/

/-- The mode that decides how a pattern compiles gives the program of the mode. -/
theorem compile_effective (pattern : List UInt8) (mode : AnchorMode) :
    compile pattern (mode.effective pattern) = compile pattern mode := by
  rw [AnchorMode.effective]
  split
  · rfl
  · rename_i h
    have hhead : (pattern.head? == some (ascii '^')) = false := beq_false_of_ne h
    simp only [compile, hhead, Bool.and_false]

/-- A leading `^` that does not anchor is an escaped one. -/
theorem compile_literal {pattern : List UInt8} (h : pattern.head? = some (ascii '^')) :
    compile pattern .literal = compile (lEsc :: pattern) .honour := by
  obtain ⟨rest, rfl⟩ : ∃ rest, pattern = ascii '^' :: rest := List.head?_eq_some_iff.1 h
  have hsame : compileItem (ascii '^') { Compiler.new (ascii '^' :: rest) with rest } =
      compileItem lEsc { Compiler.new (lEsc :: ascii '^' :: rest) with rest := ascii '^' :: rest } := rfl
  have hitems : compileItems (Compiler.new (ascii '^' :: rest)) =
      compileItems (Compiler.new (lEsc :: ascii '^' :: rest)) := by
    rw [@compileItems_cons (.new (ascii '^' :: rest)) _ _ rfl,
      @compileItems_cons (.new (lEsc :: ascii '^' :: rest)) _ _ rfl, hsame]
    cases hc : compileItem lEsc
        { Compiler.new (lEsc :: ascii '^' :: rest) with rest := ascii '^' :: rest } with
    | ok c' => rfl
    | error e =>
      rw [← hsame] at hc
      cases hc
  have hlit : (AnchorMode.literal == .honour) = false := rfl
  have hesc : ((lEsc :: ascii '^' :: rest).head? == some (ascii '^')) = false := rfl
  simp only [compile, hlit, hesc, Bool.false_and, Bool.and_false, Bool.false_eq_true, ↓reduceIte, hitems]

/-- Two modes decide the same way exactly where they give the same program. -/
theorem effective_eq_iff (pattern : List UInt8) (mode mode' : AnchorMode) :
    mode.effective pattern = mode'.effective pattern ↔
      compile pattern mode = compile pattern mode' := by
  constructor
  · intro h
    rw [← compile_effective pattern mode, h, compile_effective]
  · intro h
    rw [AnchorMode.effective, AnchorMode.effective]
    split
    · -- One of the programs would be anchored and the other not.
      rename_i hhead
      have hanchored := congrArg CompiledPattern.anchored h
      have hb : (pattern.head? == some (ascii '^')) = true := beq_iff_eq.2 hhead
      cases mode <;> cases mode' <;> first | rfl | (simp [compile, hb] at hanchored)
    · rfl

end Dellingr.Patterns
