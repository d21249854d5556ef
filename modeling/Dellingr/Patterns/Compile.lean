import Mathlib.Data.List.Basic

/-!
# Compiled patterns

A pattern is compiled to a list of items before it is matched. Every atom (a literal
byte, `.`, a class such as `%a`, or a bracketed class) becomes a set of bytes, kept
once for all its occurrences. Compilation cannot fail: the first malformed point of
a pattern becomes an item that fails when a match reaches it (`compile`).

The compiler reads the pattern through a cursor. It is kept here as the bytes from the
cursor on (`Compiler.rest`), which only get fewer (`compileItem_rest`).
-/

namespace Dellingr.Patterns

/-! ## Errors -/

/-- How a pattern is malformed. -/
inductive MalformedPattern
  | endsWithPercent | missingBalancedArguments | missingBracket | missingFrontierBracket
  deriving DecidableEq, Repr

/-- A malformed pattern or an exceeded limit, raised when a match reaches it. -/
inductive PatternError
  | invalidPatternCapture
  /-- With the index counted from zero: `%1` is 0 and `%0` is -1. -/
  | invalidCaptureIndex (index : Int)
  | malformedPattern (reason : MalformedPattern)
  | tooManyCaptures
  | matchDepthExceeded
  | unfinishedCapture
  deriving DecidableEq, Repr

/-! ## Classes of bytes -/

/-- A set of bytes: the bits of the four words of the source, in order. -/
structure ByteClass where
  bits : BitVec 256
  deriving DecidableEq

namespace ByteClass

def empty : ByteClass := ⟨0⟩

def insert (byte : UInt8) (c : ByteClass) : ByteClass := ⟨c.bits ||| 1#256 <<< byte.toNat⟩

def contains (c : ByteClass) (byte : UInt8) : Bool := c.bits.getLsbD byte.toNat

def union (c other : ByteClass) : ByteClass := ⟨c.bits ||| other.bits⟩

def invert (c : ByteClass) : ByteClass := ⟨~~~c.bits⟩

end ByteClass

/-- The byte of an ASCII character. -/
def ascii (c : Char) : UInt8 := c.toUInt8

def isAsciiDigit (b : UInt8) : Bool := ascii '0' ≤ b && b ≤ ascii '9'

def isAsciiLowercase (b : UInt8) : Bool := ascii 'a' ≤ b && b ≤ ascii 'z'

def isAsciiUppercase (b : UInt8) : Bool := ascii 'A' ≤ b && b ≤ ascii 'Z'

def isAsciiAlphabetic (b : UInt8) : Bool := isAsciiLowercase b || isAsciiUppercase b

def isAsciiAlphanumeric (b : UInt8) : Bool := isAsciiAlphabetic b || isAsciiDigit b

def isAsciiGraphic (b : UInt8) : Bool := ascii '!' ≤ b && b ≤ ascii '~'

def isAsciiPunctuation (b : UInt8) : Bool := isAsciiGraphic b && !isAsciiAlphanumeric b

def isAsciiHexdigit (b : UInt8) : Bool :=
  isAsciiDigit b || (ascii 'a' ≤ b && b ≤ ascii 'f') || (ascii 'A' ≤ b && b ≤ ascii 'F')

def isLuaWhitespace (b : UInt8) : Bool :=
  b == ascii ' ' || b == 9 || b == 10 || b == 0x0b || b == 0x0c || b == 13

def toAsciiLowercase (b : UInt8) : UInt8 := if isAsciiUppercase b then b + 32 else b

/-- The letters of the escape classes. -/
def escapeClassLetters : List UInt8 := "aAcCdDgGlLpPsSuUwWxXzZ".toList.map ascii

/-- Whether a byte belongs to a class letter; an upper-case letter is the complement. -/
def tableMatchClass (ch cls : UInt8) : Bool :=
  let signed (result : Bool) := if isAsciiUppercase cls then !result else result
  match Char.ofNat (toAsciiLowercase cls).toNat with
  | 'a' => signed (isAsciiAlphabetic ch)
  | 'c' => signed (ch ≤ 0x1f || ch == 0x7f)
  | 'd' => signed (isAsciiDigit ch)
  | 'g' => signed (isAsciiGraphic ch)
  | 'l' => signed (isAsciiLowercase ch)
  | 'p' => signed (isAsciiPunctuation ch)
  | 's' => signed (isLuaWhitespace ch)
  | 'u' => signed (isAsciiUppercase ch)
  | 'w' => signed (isAsciiAlphanumeric ch)
  | 'x' => signed (isAsciiHexdigit ch)
  | 'z' => signed (ch == 0)
  | _ => cls == ch

/-- The bytes from `first` to `last`, none when they descend. -/
def byteRange (first last : UInt8) : List UInt8 :=
  (List.range 256).map UInt8.ofNat |>.filter fun b => first ≤ b && b ≤ last

/-- The class of an escaped letter, or the escaped byte itself. -/
def escapeClass (cls : UInt8) : ByteClass :=
  if escapeClassLetters.contains cls then
    (byteRange 0 255).foldl (fun c b => if tableMatchClass b cls then c.insert b else c) .empty
  else ByteClass.empty.insert cls

/-! ## Items -/

/-- How often an atom is matched. -/
inductive Repeat
  | one | optional | zeroOrMoreGreedy | oneOrMoreGreedy | zeroOrMoreMinimal
  deriving DecidableEq, Repr

/-- An item of a compiled pattern. A class is named by its place among the classes of
    the pattern, a capture by its slot. -/
inductive Item
  | atom (cls : Nat) (rep : Repeat)
  | balance (opening closing : UInt8)
  | frontier (cls : Nat)
  | backref (slot : Nat)
  | captureStart (slot : Nat)
  | captureEnd (slot : Nat)
  | positionCapture (slot : Nat)
  | endAnchor
  /-- The first malformed point of the pattern. -/
  | fail (error : PatternError)
  deriving DecidableEq, Repr

/-- What a leading `^` means to the compiler. -/
inductive AnchorMode
  /-- It anchors the match at the start position. -/
  | honour
  /-- It is an ordinary literal byte. -/
  | literal
  deriving DecidableEq, Repr

/-- The mode that decides how a pattern compiles: the modes differ only on a leading
    `^`. -/
def AnchorMode.effective (mode : AnchorMode) (pattern : List UInt8) : AnchorMode :=
  if pattern.head? = some (ascii '^') then mode else .honour

structure CompiledPattern where
  items : List Item
  classes : List ByteClass
  anchored : Bool
  captures : Nat
  deriving DecidableEq

/-- The limit of captures. -/
def luaMaxCaptures : Nat := 32

/-! ## The compiler -/

structure Compiler where
  /-- The pattern from the cursor on. -/
  rest : List UInt8
  items : List Item
  /-- The classes met so far, each once: the source finds a class again in a map from
      classes to their places. -/
  classes : List ByteClass
  /-- The slots of the captures still open, the innermost first. -/
  captureStack : List Nat
  captures : Nat

namespace Compiler

def new (pattern : List UInt8) : Compiler := ⟨pattern, [], [], [], 0⟩

def push (item : Item) (c : Compiler) : Compiler := { c with items := c.items ++ [item] }

/-- The place of a class, which is added when it is new. -/
def internClass (cls : ByteClass) (c : Compiler) : Nat × Compiler :=
  match c.classes.findIdx? (· == cls) with
  | some id => (id, c)
  | none => (c.classes.length, { c with classes := c.classes ++ [cls] })

/-- How often the atom before these bytes is matched. -/
def repeatSuffix (rest : List UInt8) : Repeat :=
  match rest.head?.map fun b => Char.ofNat b.toNat with
  | some '?' => .optional
  | some '*' => .zeroOrMoreGreedy
  | some '+' => .oneOrMoreGreedy
  | some '-' => .zeroOrMoreMinimal
  | _ => .one

/-- Add an atom, with the repeat suffix that follows it. -/
def pushAtom (cls : ByteClass) (c : Compiler) : Compiler :=
  let (id, c) := c.internClass cls
  let rep : Repeat := repeatSuffix c.rest
  push (.atom id rep) { c with rest := if rep = .one then c.rest else c.rest.tail }

end Compiler

/-- The escape byte. -/
def lEsc : UInt8 := ascii '%'

/-- The body of a bracketed class and what follows its closing bracket. The first
    byte, and an escaped byte, cannot close it. -/
def bracketBody (body : List UInt8) : List UInt8 → Except PatternError (List UInt8 × List UInt8)
  | [] | [_] => .error (.malformedPattern .missingBracket)
  | b :: c :: rest =>
    if b = lEsc then
      match rest with
      | [] => .error (.malformedPattern .missingBracket)
      | d :: rest' =>
        if d = ascii ']' then .ok (body ++ [b, c], rest') else bracketBody (body ++ [b, c]) rest
    else if c = ascii ']' then .ok (body ++ [b], rest)
    else bracketBody (body ++ [b]) (c :: rest)

/-- The bytes the body of a bracketed class adds. An escaped byte opens no range, and
    a range does not add its first byte apart. -/
def bracketMembers (cls : ByteClass) : List UInt8 → ByteClass
  | [] => cls
  | [b] => cls.insert b
  | [b, c] =>
    if b = lEsc then cls.union (escapeClass c) else bracketMembers (cls.insert b) [c]
  | b :: c :: d :: rest =>
    if b = lEsc then bracketMembers (cls.union (escapeClass c)) (d :: rest)
    else if c = ascii '-' then
      bracketMembers ((byteRange b d).foldl (fun cls b => cls.insert b) cls) rest
    else bracketMembers (cls.insert b) (c :: d :: rest)

/-- The class of a bracket expression, read after its opening bracket, and what
    follows it. -/
def bracketClass (pattern : List UInt8) : Except PatternError (ByteClass × List UInt8) :=
  let invert := pattern.head? = some (ascii '^')
  match bracketBody [] (if invert then pattern.tail else pattern) with
  | .error e => .error e
  | .ok (body, rest) =>
    let cls := bracketMembers .empty body
    .ok (if invert then cls.invert else cls, rest)

/-- Compile the item of an escaped byte, with the cursor after it. -/
def compileEscape (escaped : UInt8) (c : Compiler) : Except PatternError Compiler :=
  if escaped = ascii 'b' then
    match c.rest with
    | opening :: closing :: rest => .ok ({ c with rest }.push (.balance opening closing))
    | _ => .error (.malformedPattern .missingBalancedArguments)
  else if escaped = ascii 'f' then
    if c.rest.head? = some (ascii '[') then
      match bracketClass c.rest.tail with
      | .error e => .error e
      | .ok (cls, rest) =>
        let (id, c) := { c with rest }.internClass cls
        .ok (c.push (.frontier id))
    else .error (.malformedPattern .missingFrontierBracket)
  else if isAsciiDigit escaped then
    -- Only a capture that is closed can be referred to.
    let index : Int := escaped.toNat - (ascii '1').toNat
    if 0 ≤ index ∧ index.toNat < c.captures ∧ index.toNat ∉ c.captureStack then
      .ok (c.push (.backref index.toNat))
    else .error (.invalidCaptureIndex index)
  else .ok (c.pushAtom (escapeClass escaped))

/-- Compile the item that starts at `byte`, with the cursor after it. -/
def compileItem (byte : UInt8) (c : Compiler) : Except PatternError Compiler :=
  match Char.ofNat byte.toNat with
  | '(' =>
    if c.captures = luaMaxCaptures then .error .tooManyCaptures
    else
      let slot := c.captures
      let c := { c with captures := c.captures + 1 }
      if c.rest.head? = some (ascii ')') then
        .ok ({ c with rest := c.rest.tail }.push (.positionCapture slot))
      else .ok ({ c with captureStack := slot :: c.captureStack }.push (.captureStart slot))
  | ')' =>
    match c.captureStack with
    | [] => .error .invalidPatternCapture
    | slot :: captureStack => .ok ({ c with captureStack }.push (.captureEnd slot))
  | '%' =>
    match c.rest with
    | [] => .error (.malformedPattern .endsWithPercent)
    | escaped :: rest => compileEscape escaped { c with rest }
  | '[' =>
    match bracketClass c.rest with
    | .error e => .error e
    | .ok (cls, rest) => .ok ({ c with rest }.pushAtom cls)
  | '.' => .ok (c.pushAtom ByteClass.empty.invert)
  | _ =>
    if byte = ascii '$' ∧ c.rest = [] then .ok (c.push .endAnchor)
    else .ok (c.pushAtom (ByteClass.empty.insert byte))

/-! ### What compiling an item does -/

/-- Where the captures started so far are the slots below `started`, how many are
    after the item; none when it names a class or a slot that is not there. -/
def Item.scope (classes started : Nat) : Item → Option Nat
  | atom cls _ | frontier cls => if cls < classes then some started else none
  | backref slot | captureEnd slot => if slot < started then some started else none
  | captureStart slot | positionCapture slot =>
    if slot = started ∧ started < luaMaxCaptures then some (started + 1) else none
  | balance _ _ | endAnchor | fail _ => some started

theorem Item.scope_mono {item : Item} {n m started s : Nat} (h : item.scope n started = some s)
    (hnm : n ≤ m) : item.scope m started = some s := by
  cases item with
  | atom cls rep | frontier cls =>
    simp only [scope, Option.ite_none_right_eq_some] at h ⊢
    exact ⟨Nat.lt_of_lt_of_le h.1 hnm, h.2⟩
  | _ => exact h

namespace Compiler

/-- The open captures have been started, and there are not too many. -/
structure Ok (c : Compiler) : Prop where
  stack : ∀ slot ∈ c.captureStack, slot < c.captures
  captures : c.captures ≤ luaMaxCaptures

/-- The compiler after one item more. -/
structure Adds (c c' : Compiler) : Prop where
  rest : c'.rest.length ≤ c.rest.length
  classes : c.classes.length ≤ c'.classes.length
  ok : c.Ok → c'.Ok
  item : c.Ok → ∃ item, c'.items = c.items ++ [item] ∧
    item.scope c'.classes.length c.captures = some c'.captures ∧
    (item = .endAnchor → c'.rest = [])

variable {c c' : Compiler} {cls : ByteClass}

theorem Adds.of_rest {rest : List UInt8} (h : Adds { c with rest } c')
    (hr : rest.length ≤ c.rest.length) : c.Adds c' where
  rest := Nat.le_trans h.rest hr
  classes := h.classes
  ok hc := h.ok ⟨hc.stack, hc.captures⟩
  item hc := h.item ⟨hc.stack, hc.captures⟩

/-- An item that starts no capture is added. -/
theorem adds_push {item : Item} (hr : c'.rest.length ≤ c.rest.length)
    (hc : c.classes.length ≤ c'.classes.length) (hi : c'.items = c.items)
    (hs : c'.captureStack ⊆ c.captureStack) (hn : c'.captures = c.captures)
    (hitem : c.Ok → item.scope c'.classes.length c.captures = some c.captures)
    (hend : item = .endAnchor → c'.rest = []) : c.Adds (c'.push item) where
  rest := hr
  classes := hc
  ok h := by
    refine ⟨fun slot hm => ?_, hn ▸ h.captures⟩
    show slot < c'.captures
    rw [hn]
    exact h.stack slot (hs hm)
  item h := ⟨item, by rw [push, hi], (hitem h).trans (congrArg some hn.symm), hend⟩

/-- Interning a class changes the classes alone, and its place is among them. -/
theorem internClass_spec (cls : ByteClass) (c : Compiler) : ∃ classes,
    (c.internClass cls).2 = { c with classes } ∧ c.classes.length ≤ classes.length ∧
    (c.internClass cls).1 < classes.length := by
  rw [internClass]
  split
  · rename_i id hid
    exact ⟨c.classes, rfl, Nat.le_refl _, (List.findIdx?_eq_some_iff_getElem.1 hid).1⟩
  · exact ⟨c.classes ++ [cls], rfl, by simp, by simp⟩

theorem adds_pushAtom (cls : ByteClass) {rest : List UInt8} (hr : rest.length ≤ c.rest.length) :
    c.Adds ({ c with rest }.pushAtom cls) := by
  obtain ⟨classes, hc, hle, hlt⟩ := internClass_spec cls { c with rest }
  simp only [pushAtom, hc]
  refine adds_push ?_ hle rfl (List.Subset.refl _) rfl (fun _ => if_pos hlt) (fun h => by cases h)
  split
  · exact hr
  · simp only [List.length_tail]
    omega

theorem adds_frontier (cls : ByteClass) {rest : List UInt8} (hr : rest.length ≤ c.rest.length) :
    c.Adds (({ c with rest }.internClass cls).2.push
      (.frontier ({ c with rest }.internClass cls).1)) := by
  obtain ⟨classes, hc, hle, hlt⟩ := internClass_spec cls { c with rest }
  rw [hc]
  exact adds_push hr hle rfl (List.Subset.refl _) rfl (fun _ => if_pos hlt) (fun h => by cases h)

/-- A capture is started in the next slot. -/
theorem adds_capture {item : Item} {rest : List UInt8} {stack : List Nat}
    (hr : rest.length ≤ c.rest.length) (hn : c.captures ≠ luaMaxCaptures)
    (hitem : item = .captureStart c.captures ∨ item = .positionCapture c.captures)
    (hs : ∀ slot ∈ stack, slot = c.captures ∨ slot ∈ c.captureStack) :
    c.Adds (push item ⟨rest, c.items, c.classes, stack, c.captures + 1⟩) where
  rest := hr
  classes := Nat.le_refl _
  ok h := by
    have hlt : c.captures < luaMaxCaptures := Nat.lt_of_le_of_ne h.captures hn
    refine ⟨fun slot hm => ?_, hlt⟩
    show slot < c.captures + 1
    rcases hs slot hm with rfl | hm
    · exact Nat.lt_succ_self _
    · exact Nat.lt_succ_of_lt (h.stack slot hm)
  item h := by
    have hlt : c.captures < luaMaxCaptures := Nat.lt_of_le_of_ne h.captures hn
    refine ⟨item, rfl, ?_, ?_⟩
    · rcases hitem with rfl | rfl <;> exact if_pos ⟨rfl, hlt⟩
    · rintro rfl
      simp at hitem

end Compiler

theorem bracketBody_rest {body rest : List UInt8} {r : List UInt8 × List UInt8}
    (h : bracketBody body rest = .ok r) : r.2.length < rest.length := by
  fun_induction bracketBody body rest with
  | case1 | case2 | case3 => simp at h
  | case4 body c rest =>
    cases h
    simp only [List.length_cons]
    omega
  | case5 body c d rest _ ih =>
    have := ih h
    simp only [List.length_cons] at this ⊢
    omega
  | case6 body b rest =>
    cases h
    simp only [List.length_cons]
    omega
  | case7 body b c rest _ _ ih =>
    have := ih h
    simp only [List.length_cons] at this ⊢
    omega

theorem bracketClass_rest {pattern : List UInt8} {r : ByteClass × List UInt8}
    (h : bracketClass pattern = .ok r) : r.2.length ≤ pattern.length := by
  rw [bracketClass] at h
  split at h
  · cases h
  · rename_i body rest hbody
    have hlt := bracketBody_rest hbody
    cases h
    split at hlt
    · rw [List.length_tail] at hlt
      exact Nat.le_of_lt (Nat.lt_of_lt_of_le hlt (Nat.sub_le _ _))
    · exact Nat.le_of_lt hlt

theorem compileEscape_adds {escaped : UInt8} {c c' : Compiler}
    (h : compileEscape escaped c = .ok c') : c.Adds c' := by
  rw [compileEscape] at h
  split at h
  · split at h
    · rename_i opening closing rest hr
      cases h
      refine Compiler.adds_push ?_ (Nat.le_refl _) rfl (List.Subset.refl _) rfl (fun _ => rfl)
        (fun h => by cases h)
      simp only [hr, List.length_cons]
      omega
    · cases h
  split at h
  · split at h
    · split at h
      · cases h
      · rename_i cls rest hb
        cases h
        have hle := bracketClass_rest hb
        rw [List.length_tail] at hle
        exact Compiler.adds_frontier cls (Nat.le_trans hle (Nat.sub_le _ _))
    · cases h
  split at h
  · simp only at h
    split at h
    · rename_i hslot
      cases h
      exact Compiler.adds_push (Nat.le_refl _) (Nat.le_refl _) rfl (List.Subset.refl _) rfl
        (fun _ => if_pos hslot.2.1) (fun h => by cases h)
    · cases h
  · cases h
    exact Compiler.adds_pushAtom _ (Nat.le_refl _)

/-- Compiling an item adds it. -/
theorem compileItem_adds {byte : UInt8} {c c' : Compiler} (h : compileItem byte c = .ok c') :
    c.Adds c' := by
  rw [compileItem] at h
  split at h
  · -- A capture, or a position capture.
    split at h
    · cases h
    · rename_i hn
      simp only at h
      split at h
      · cases h
        exact Compiler.adds_capture (by simp) hn (.inr rfl) fun slot hm => .inr hm
      · cases h
        exact Compiler.adds_capture (Nat.le_refl _) hn (.inl rfl) fun slot hm => List.mem_cons.1 hm
  · -- The end of a capture.
    split at h
    · cases h
    · rename_i slot stack hs
      cases h
      refine Compiler.adds_push (Nat.le_refl _) (Nat.le_refl _) rfl ?_ rfl (fun hc => ?_)
        (fun h => by cases h)
      · rw [hs]
        exact List.subset_cons_self _ _
      · exact if_pos (hc.stack slot (by rw [hs]; exact List.mem_cons_self))
  · -- An escape.
    split at h
    · cases h
    · rename_i escaped rest hr
      refine (compileEscape_adds h).of_rest ?_
      rw [hr]
      exact Nat.le_succ _
  · split at h
    · cases h
    · rename_i cls rest hb
      cases h
      exact Compiler.adds_pushAtom cls (bracketClass_rest hb)
  · cases h
    exact Compiler.adds_pushAtom _ (Nat.le_refl _)
  · -- An anchor at the end, or a literal byte.
    split at h
    · rename_i hend
      cases h
      exact Compiler.adds_push (Nat.le_refl _) (Nat.le_refl _) rfl (List.Subset.refl _) rfl
        (fun _ => rfl) fun _ => hend.2
    · cases h
      exact Compiler.adds_pushAtom _ (Nat.le_refl _)

/-! ## Whole patterns -/

/-- Compile items to the end of the pattern, or to its first malformed point. -/
def compileItems (c : Compiler) : Except PatternError Unit × Compiler :=
  match _hr : c.rest with
  | [] => (.ok (), c)
  | byte :: rest =>
    match _hc : compileItem byte { c with rest } with
    -- The item that is rejected is not pushed.
    | .error e => (.error e, { c with rest })
    | .ok c' => compileItems c'
termination_by c.rest.length
decreasing_by
  have := (compileItem_adds _hc).rest
  simp only [_hr, List.length_cons] at this ⊢
  omega

/-- Compile a pattern. -/
def compile (pattern : List UInt8) (mode : AnchorMode) : CompiledPattern :=
  let anchored := mode == .honour && pattern.head? == some (ascii '^')
  let (result, c) := compileItems (Compiler.new (if anchored then pattern.tail else pattern))
  let c := match result with
    | .error e => c.push (.fail e)
    | .ok () => c
  { items := c.items, classes := c.classes, anchored, captures := c.captures }

/-- Items in scope: each names classes and slots that are there, captures are started
    in the order of their slots, and a match that ends has started all of them. -/
inductive Scoped (classes captures : Nat) : Nat → List Item → Prop
  | nil : Scoped classes captures captures []
  | fail {started : Nat} {e : PatternError} : Scoped classes captures started [.fail e]
  | cons {started s : Nat} {item : Item} {items : List Item}
      (hs : item.scope classes started = some s) (hend : item = .endAnchor → items = [])
      (h : Scoped classes captures s items) : Scoped classes captures started (item :: items)

theorem compileItems_nil {c : Compiler} (h : c.rest = []) : compileItems c = (.ok (), c) := by
  rw [compileItems]
  split
  · rfl
  · rename_i hr
    rw [h] at hr
    cases hr

theorem compileItems_cons {c : Compiler} {byte : UInt8} {text : List UInt8}
    (hr : c.rest = byte :: text) :
    compileItems c =
      match compileItem byte { c with rest := text } with
      | .error e => (.error e, { c with rest := text })
      | .ok c' => compileItems c' := by
  rw [compileItems]
  split
  · rename_i hnil
    rw [hr] at hnil
    cases hnil
  · rename_i byte' text' hcons
    obtain ⟨rfl, rfl⟩ := List.cons.inj (hr.symm.trans hcons)
    split
    · rename_i e he
      rw [he]
    · rename_i c' hc'
      rw [hc']

theorem compileItems_step {c c' : Compiler} {byte : UInt8} {text : List UInt8}
    (hr : c.rest = byte :: text) (hc : compileItem byte { c with rest := text } = .ok c') :
    compileItems c = compileItems c' := by
  rw [compileItems_cons hr, hc]

/-- What compiling to the end adds: items in scope, with the malformed point last when
    there is one. -/
theorem compileItems_scoped (c : Compiler) (hc : c.Ok) :
    c.classes.length ≤ (compileItems c).2.classes.length ∧ (compileItems c).2.Ok ∧
    ∃ items, (compileItems c).2.items = c.items ++ items ∧
      ∀ n, (compileItems c).2.classes.length ≤ n →
        match (compileItems c).1 with
        | .ok () => Scoped n (compileItems c).2.captures c.captures items
        | .error e => Scoped n (compileItems c).2.captures c.captures (items ++ [.fail e]) := by
  fun_induction compileItems c with
  | case1 c hr => exact ⟨Nat.le_refl _, hc, [], by simp, fun n _ => .nil⟩
  | case2 c byte rest hr e he =>
    exact ⟨Nat.le_refl _, ⟨hc.stack, hc.captures⟩, [], by simp, fun n _ => .fail⟩
  | case3 c byte rest hr c' hc' ih =>
    have hadds := compileItem_adds hc'
    have hok : c'.Ok := hadds.ok ⟨hc.stack, hc.captures⟩
    obtain ⟨hle, hok', items, hitems, hscoped⟩ := ih hok
    obtain ⟨item, hitem, hscope, hend⟩ := hadds.item ⟨hc.stack, hc.captures⟩
    refine ⟨Nat.le_trans hadds.classes hle, hok', item :: items, ?_, fun n hn => ?_⟩
    · rw [hitems, hitem, List.append_assoc]
      rfl
    · have hscope' := Item.scope_mono hscope (Nat.le_trans hle hn)
      have hs := hscoped n hn
      by_cases hanchor : item = .endAnchor
      · -- The anchor ends the pattern, so nothing follows it.
        have hnil := compileItems_nil (hend hanchor)
        rw [hnil] at hitems hs ⊢
        have : items = [] := by simpa using hitems
        exact .cons hscope' (fun _ => this) hs
      · split at hs
        · exact .cons hscope' (fun h => absurd h hanchor) hs
        · exact .cons hscope' (fun h => absurd h hanchor) hs

/-- A compiled pattern is in scope. -/
theorem compile_scoped (pattern : List UInt8) (mode : AnchorMode) :
    Scoped (compile pattern mode).classes.length (compile pattern mode).captures 0
      (compile pattern mode).items ∧ (compile pattern mode).captures ≤ luaMaxCaptures := by
  have hnew : ∀ p, (Compiler.new p).Ok := fun p => ⟨by simp [Compiler.new], Nat.zero_le _⟩
  simp only [compile]
  generalize (if (mode == .honour && pattern.head? == some (ascii '^')) = true then pattern.tail
    else pattern) = p
  obtain ⟨-, hok, items, hitems, hscoped⟩ := compileItems_scoped (Compiler.new p) (hnew p)
  have hs := hscoped _ (Nat.le_refl _)
  have hnil : (compileItems (Compiler.new p)).2.items = items := hitems
  rw [← hnil] at hs
  cases hr : (compileItems (Compiler.new p)).1 with
  | ok =>
    rw [hr] at hs
    exact ⟨hs, hok.captures⟩
  | error e =>
    rw [hr] at hs
    exact ⟨hs, hok.captures⟩

end Dellingr.Patterns
