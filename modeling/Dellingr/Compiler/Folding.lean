import Dellingr.Compiler.Lexer
import Dellingr.Compiler.Verify
import Dellingr.HexNumeral
import Dellingr.Lib.AssocList
import Dellingr.Lib.Effect

/-!
# Constant folding and the pool of numbers

The parser of a function keeps the function's number literals in a pool and writes the index of
one into the tree (`ExprKind.num`). While it builds the tree it folds: a negation of a literal,
and an operator between two literals, becomes the literal of its result.

* A number is asked for through a key (`numberLiteralKey`), which a NaN does not have and which
  the two zeros share, so the pool has an index with the same bits for every number but the
  negative zero (`wp_findOrAddNumber`). That one is never asked for: no numeral of the source
  stands for it (`parseLuaNumeral_nonneg`), and a result that is one is not folded.
* A result that is a NaN or a negative zero, and every result that a full pool has no room for,
  leaves the operator in the tree.

`Source` is the expression as it is written. It has the value the tree has over the literals of
the finished function (`folding_exact`), the operators being any functions of doubles.
-/

namespace Dellingr.Folding

open Numeral (FloatOps parseLuaNumeral)
open Effect (get modify fail wp wp_mono wp_ite)

/-! ## The pool -/

/-- The key of a number in the pool. The two zeros have the same. -/
def numberLiteralKey (number : F64) : Option Nat :=
  if number.isNan then none
  else
    let bits := number.bits.toNat
    if bits % 2 ^ 63 = 0 then some 0 else some bits

/-- The number literals of a function, with the index of each key. -/
structure NumberPool where
  numberLiterals : List F64
  numbers : List (Nat × Nat)
  /-- What the parser asked for, with the answers. Only statements read it. -/
  requests : List (F64 × Nat)
  deriving DecidableEq

namespace NumberPool

def new : NumberPool := ⟨[], [], []⟩

/-- The index of a key. -/
def indexOf (p : NumberPool) (key : Nat) : Option Nat := AssocList.lookup (· == ·) p.numbers key

/-- Add a literal, with its key if it has one. -/
def push (p : NumberPool) (num : F64) : NumberPool :=
  { p with
    numberLiterals := p.numberLiterals ++ [num]
    numbers := match numberLiteralKey num with
      | some key => (key, p.numberLiterals.length) :: p.numbers
      | none => p.numbers }

/-- Record an answer. -/
def answered (num : F64) (index : Nat) (p : NumberPool) : NumberPool :=
  { p with requests := (num, index) :: p.requests }

end NumberPool

inductive ParseError
  | badNumber
  | tooManyNumbers
  /-- An index of the tree that the pool does not have: a bug of the parser. -/
  | foldedLiteralOutOfRange
  deriving DecidableEq, Repr

abbrev Parse (α : Type) : Type := Effect NumberPool ParseError α

/-- The index of a number, which is added to the pool if its key is not there. -/
def findOrAddNumber (num : F64) : Parse Nat := do
  let p ← get
  match (numberLiteralKey num).bind p.indexOf with
  | some index =>
    modify (NumberPool.answered num index)
    return index
  | none =>
    let i := p.numberLiterals.length
    if i < MAX_LITERALS then
      modify fun p => (p.push num).answered num i
      return i
    else fail .tooManyNumbers

/-- The literal at an index. -/
def numberLiteral (idx : Nat) : Parse F64 := do
  let p ← get
  match p.numberLiterals[idx]? with
  | some num => return num
  | none => fail .foldedLiteralOutOfRange

/-- The index of a result, unless it may not be folded or the pool is full. -/
def tryFoldLiteral (value : F64) : Parse (Option Nat) :=
  if value.isNan || (value.isZero && value.sign) then return none
  else do
    match ← (findOrAddNumber value).attempt with
    | .ok index => return some index
    | .error .tooManyNumbers => return none
    | .error error => fail error

/-! ## The tree -/

/-- The expressions of numbers in the tree of the parser. -/
inductive ExprKind
  | num (idx : Nat)
  | neg (operand : ExprKind)
  | pow (base exponent : ExprKind)
  /-- Operators of one precedence, from left to right. -/
  | arith (first : ExprKind) (rest : List (ArithOp × ExprKind))

section

variable (arith : ArithOp → F64 → F64 → F64) (literals : List F64)

mutual

/-- The value of an expression over the literals of the function. -/
def ExprKind.eval : ExprKind → Option F64
  | .num idx => literals[idx]?
  | .neg operand => operand.eval.map F64.neg
  | .pow base exponent => do return arith .pow (← base.eval) (← exponent.eval)
  | .arith first rest => do evalLinks (← first.eval) rest

/-- The value of a chain from the value of what is before it. -/
def evalLinks (value : F64) : List (ArithOp × ExprKind) → Option F64
  | [] => some value
  | (op, rhs) :: rest => do evalLinks (arith op value (← rhs.eval)) rest

end

end

/-- Whether an operator between literals is evaluated by the parser. -/
def foldable : ArithOp → Bool
  | .pow => false
  | _ => true

/-- A chain under construction. -/
structure ChainBuilder where
  first : ExprKind
  rest : List (ArithOp × ExprKind)

namespace ChainBuilder

def new (first : ExprKind) : ChainBuilder := ⟨first, []⟩

/-- Leave an operator in the chain. -/
def append (chain : ChainBuilder) (op : ArithOp) (rhs : ExprKind) : ChainBuilder :=
  { chain with rest := chain.rest ++ [(op, rhs)] }

/-- Add an operator and its operand. It is folded while the chain is one literal. -/
def push (arith : ArithOp → F64 → F64 → F64) (chain : ChainBuilder) (op : ArithOp) (rhs : ExprKind) :
    Parse ChainBuilder :=
  match chain.rest.isEmpty && foldable op, chain.first, rhs with
  | true, .num lhs, .num rhsIdx => do
    let value := arith op (← numberLiteral lhs) (← numberLiteral rhsIdx)
    match ← tryFoldLiteral value with
    | some folded => return { chain with first := .num folded }
    | none => return chain.append op rhs
  | _, _, _ => return chain.append op rhs

def finish (chain : ChainBuilder) : ExprKind :=
  if chain.rest.isEmpty then chain.first else .arith chain.first chain.rest

end ChainBuilder

/-- Negate an operand. -/
def negate (operand : ExprKind) : Parse ExprKind :=
  match operand with
  | .num idx => do
    let value := (← numberLiteral idx).neg
    match ← tryFoldLiteral value with
    | some folded => return .num folded
    | none => return .neg operand
  | _ => return .neg operand

/-! ## The expressions of the source -/

/-- A byte that a numeral starts with. -/
def startsNumeral (byte : UInt8) : Bool := Patterns.isAsciiDigit byte || byte == Patterns.ascii '.'

/-- The text of a numeral, which has no sign. -/
structure NumeralText where
  bytes : List UInt8
  unsigned : bytes.head?.any startsNumeral = true

mutual

/-- An expression of numerals and operators, as it is written. -/
inductive Source
  | literal (text : NumeralText)
  | paren (inner : Source)
  | neg (operand : Source)
  | pow (base exponent : Source)
  | chain (c : Chain)

/-- The operands of one precedence, from left to right. -/
inductive Chain
  | first (operand : Source)
  | push (c : Chain) (op : ArithOp) (rhs : Source)

end

section

variable (ops : FloatOps) (arith : ArithOp → F64 → F64 → F64)

mutual

/-- The value of an expression at run time, with no operator folded. -/
def Source.eval : Source → Option F64
  | .literal text => parseLuaNumeral ops text.bytes
  | .paren inner => inner.eval
  | .neg operand => operand.eval.map F64.neg
  | .pow base exponent => do return arith .pow (← base.eval) (← exponent.eval)
  | .chain c => c.eval

def Chain.eval : Chain → Option F64
  | .first operand => operand.eval
  | .push c op rhs => do return arith op (← c.eval) (← rhs.eval)

end

/-- The value of a numeral, which the lexer gives with its token. -/
def lexLiteral (text : NumeralText) : Parse F64 :=
  match parseLuaNumeral ops text.bytes with
  | some number => return number
  | none => fail .badNumber

mutual

/-- Parse an expression. One in parentheses is the expression inside them. -/
def Source.parse : Source → Parse ExprKind
  | .literal text => do return .num (← findOrAddNumber (← lexLiteral ops text))
  | .paren inner => inner.parse
  | .neg operand => do negate (← operand.parse)
  | .pow base exponent => do
    let base ← base.parse
    let exponent ← exponent.parse
    return .pow base exponent
  | .chain c => do return (← c.parse).finish

def Chain.parse : Chain → Parse ChainBuilder
  | .first operand => do return ChainBuilder.new (← operand.parse)
  | .push c op rhs => do
    let chain ← c.parse
    let rhs ← rhs.parse
    chain.push arith op rhs

end

/-- What asks for a number in a function: an expression, or a numeric loop without a step. -/
inductive Item
  | expr (e : Source)
  | forStep

/-- Parse what a function has, one after another. -/
def parseItems : List Item → Parse Unit
  | [] => return ()
  | .expr e :: rest => do
    let _ ← e.parse ops arith
    parseItems rest
  | .forStep :: rest => do
    let _ ← findOrAddNumber (F64.ofNat 1)
    parseItems rest

end

/-! ## Numerals have no sign -/

/-- What the parser relies on of the standard library: the double of a decimal without a sign is
    not negative and not a NaN. -/
def ReadsUnsigned (ops : FloatOps) : Prop :=
  ∀ bytes x, bytes.head?.any startsNumeral = true → ops.parseF64 bytes = some x →
    x.sign = false ∧ x.isNan = false

def negZero : F64 := (F64.ofBits 0).neg

theorem ne_negZero {x : F64} (h : ¬(x.isZero && x.sign) = true) : x ≠ negZero := by
  rintro rfl
  exact h (by decide)

variable {ops : FloatOps}

/-- A byte that starts a numeral is no whitespace and no sign. -/
theorem startsNumeral_spec {byte : UInt8} (h : startsNumeral byte = true) :
    Patterns.isLuaWhitespace byte = false ∧ byte ≠ Patterns.ascii '-' ∧ byte ≠ Patterns.ascii '+' := by
  have hall : ((List.range 256).all fun n => !startsNumeral (.ofNat n) ||
      (!Patterns.isLuaWhitespace (.ofNat n) && .ofNat n != Patterns.ascii '-' &&
        .ofNat n != Patterns.ascii '+')) = true := by decide +kernel
  have hbyte := List.all_eq_true.1 hall byte.toNat (List.mem_range.2 byte.toNat_lt)
  rw [UInt8.ofNat_toNat, h, Bool.not_true, Bool.false_or, Bool.and_eq_true, Bool.and_eq_true,
    Bool.not_eq_true', bne_iff_ne, bne_iff_ne] at hbyte
  exact ⟨hbyte.1.1, hbyte.1.2, hbyte.2⟩

/-- A numeral of the source is never a negative number, the negative zero or a NaN. -/
theorem parseLuaNumeral_nonneg (hops : ReadsUnsigned ops) (text : NumeralText) {x : F64}
    (h : parseLuaNumeral ops text.bytes = some x) : x.sign = false ∧ x.isNan = false := by
  obtain ⟨bytes, hunsigned⟩ := text
  cases bytes with
  | nil => cases hunsigned
  | cons byte rest =>
    have hbyte : startsNumeral byte = true := hunsigned
    obtain ⟨hspace, hminus, hplus⟩ := startsNumeral_spec hbyte
    obtain ⟨rest', htrim⟩ : ∃ rest', Numeral.trimLuaWhitespace (byte :: rest) = byte :: rest' := by
      have hdrop : (byte :: rest).dropWhile Patterns.isLuaWhitespace = byte :: rest := by
        rw [List.dropWhile_cons, if_neg (by rw [hspace]; exact Bool.false_ne_true)]
      rw [Numeral.trimLuaWhitespace, hdrop]
      have hprefix := List.rdropWhile_prefix Patterns.isLuaWhitespace (l := byte :: rest)
      cases hr : (byte :: rest).rdropWhile Patterns.isLuaWhitespace with
      | nil =>
        have := (List.rdropWhile_eq_nil_iff).1 hr byte List.mem_cons_self
        rw [hspace] at this
        cases this
      | cons b bs =>
        rw [hr] at hprefix
        obtain ⟨t, ht⟩ := hprefix
        rw [List.cons_append, List.cons.injEq] at ht
        exact ⟨bs, by rw [ht.1]⟩
    have hsign : Numeral.splitSign (byte :: rest') = (false, byte :: rest') := by
      rw [Numeral.splitSign]
      simp only [beq_iff_eq, hminus, hplus, if_false]
    rw [parseLuaNumeral, htrim, hsign] at h
    simp only [Bool.false_eq_true, if_false, Option.map_id_fun', id_eq] at h
    rw [Numeral.parseUnsigned] at h
    split at h
    · exact Numeral.parseHex_nonneg h
    · rw [Numeral.parseDecimal] at h
      simp only [Option.bind_eq_bind] at h
      obtain ⟨⟨mantissa, exponent⟩, -, h⟩ := Option.bind_eq_some_iff.1 h
      obtain ⟨digits, -, h⟩ := Option.bind_eq_some_iff.1 h
      split at h
      · cases h
      have hparse : ops.parseF64 (byte :: rest') = some x := by
        cases exponent with
        | none => exact h
        | some text =>
          obtain ⟨_, -, h⟩ := Option.bind_eq_some_iff.1 h
          exact h
      exact hops (byte :: rest') x hbyte hparse

/-! ## The numerals of the lexer -/

/-- Moving on in the same source. -/
def Ahead (l l' : Lexer) : Prop := l'.source = l.source ∧ l.pos ≤ l'.pos

theorem Ahead.trans {l l₁ l₂ : Lexer} (h : Ahead l l₁) (h₁ : Ahead l₁ l₂) : Ahead l l₂ :=
  ⟨h₁.1.trans h.1, h.2.trans h₁.2⟩

theorem ahead_refl (l : Lexer) : Ahead l l := ⟨rfl, le_rfl⟩

theorem ahead_advance (l : Lexer) (c : UInt8) : Ahead l (l.advance c) :=
  ⟨Lexer.source_advance, by rw [Lexer.pos_advance]; exact Nat.le_succ _⟩

theorem ahead_tryNext (l : Lexer) (c : UInt8) : Ahead l (l.tryNext c).2 := by
  rw [Lexer.tryNext]
  split
  · split
    · exact ahead_advance l _
    · exact ahead_refl l
  · exact ahead_refl l

theorem ahead_skipNumeral (lower upper : UInt8) (fuel : Nat) (l : Lexer) :
    Ahead l (Lexer.skipNumeral lower upper fuel l) := by
  induction fuel generalizing l with
  | zero => exact ahead_refl l
  | succ fuel ih =>
    rw [Lexer.skipNumeral]
    split
    · exact ahead_refl l
    rename_i c hc
    split
    · -- The sign of an exponent is skipped with its letter.
      have hsign : Ahead l (if ((l.advance c).tryNext (Patterns.ascii '+')).1 then
          ((l.advance c).tryNext (Patterns.ascii '+')).2
          else (((l.advance c).tryNext (Patterns.ascii '+')).2.tryNext (Patterns.ascii '-')).2) := by
        have hplus := (ahead_advance l c).trans (ahead_tryNext _ (Patterns.ascii '+'))
        split
        · exact hplus
        · exact hplus.trans (ahead_tryNext _ _)
      exact hsign.trans (ih _)
    · split
      · exact (ahead_advance l c).trans (ih _)
      · exact ahead_refl l

/-- The number of a numeral is the value of a text that starts with its first byte. -/
theorem lexNumeral_text {l l' : Lexer} {first : UInt8} {start : Nat} {v : F64}
    (hfirst : l.source[start]? = some first) (hpos : start < l.pos) (hstarts : startsNumeral first = true)
    (h : l.lexNumeral ops first start = .ok (v, l')) :
    ∃ text : NumeralText, parseLuaNumeral ops text.bytes = some v := by
  rw [Lexer.lexNumeral] at h
  split at h
  rename_i hex l₁ hhex
  have h₁ : Ahead l l₁ := by
    have hx := ahead_tryNext l (Patterns.ascii 'x')
    split at hhex
    · split at hhex
      · rename_i l₂ hfound
        rw [hfound] at hx
        rwa [← (Prod.mk.inj hhex).2]
      · rename_i l₂ hfound
        rw [hfound] at hx
        have hX := ahead_tryNext l₂ (Patterns.ascii 'X')
        rw [hhex] at hX
        exact hx.trans hX
    · rw [← (Prod.mk.inj hhex).2]
      exact ahead_refl l
  simp only at h
  generalize hl₂ : (if hex = true then Lexer.skipNumeral (Patterns.ascii 'p') (Patterns.ascii 'P') l₁.remaining l₁
    else Lexer.skipNumeral (Patterns.ascii 'e') (Patterns.ascii 'E') l₁.remaining l₁) = l₂ at h
  have h₂ : Ahead l₁ l₂ := by
    rw [← hl₂]
    split <;> exact ahead_skipNumeral _ _ _ _
  obtain ⟨l₃, h₃, e, h⟩ : ∃ l₃, Ahead l₂ l₃ ∧ ∃ e, (match parseLuaNumeral ops (l₃.sourceFrom start) with
      | some number => Except.ok (number, l₃)
      | none => .error e) = (.ok (v, l') : Except LexError (F64 × Lexer)) := by
    refine ⟨_, ?_, _, h⟩
    split
    · split
      · exact ahead_advance l₂ _
      · exact ahead_refl l₂
    · exact ahead_refl l₂
  have hahead := (h₁.trans h₂).trans h₃
  have hhead : (l₃.sourceFrom start).head? = some first := by
    have hlt := lt_of_lt_of_le hpos hahead.2
    rw [Lexer.sourceFrom, List.head?_eq_getElem?, List.getElem?_drop, Nat.add_zero,
      List.getElem?_take_of_lt hlt, hahead.1]
    exact hfirst
  cases hparse : parseLuaNumeral ops (l₃.sourceFrom start) with
  | none =>
    rw [hparse] at h
    cases h
  | some number =>
    rw [hparse, Except.ok.injEq, Prod.mk.injEq] at h
    exact ⟨⟨l₃.sourceFrom start, by rw [hhead]; exact hstarts⟩, by rw [hparse, h.1]⟩

/-- Every number the lexer gives is that of a numeral without a sign. -/
theorem lexToken_text {l l' : Lexer} {first : UInt8} {start line : Nat} {token : Token} {v : F64}
    (hfirst : l.source[start]? = some first) (hpos : start < l.pos)
    (h : l.lexToken ops first start line = .ok (some (token, some (.number v)), l')) :
    ∃ text : NumeralText, parseLuaNumeral ops text.bytes = some v := by
  have hnumber : startsNumeral first = true →
      (l.lexNumeral ops first start >>= fun r =>
        .ok (some (r.2.literalToken (.number r.1) start line), r.2)) =
          .ok (some (token, some (.number v)), l') →
      ∃ text : NumeralText, parseLuaNumeral ops text.bytes = some v := by
    intro hstarts h
    cases hlex : l.lexNumeral ops first start with
    | error e =>
      rw [hlex] at h
      cases h
    | ok r =>
      obtain ⟨value, l₁⟩ := r
      rw [hlex] at h
      obtain ⟨⟩ := h
      exact lexNumeral_text hfirst hpos hstarts hlex
  rw [Lexer.lexToken] at h
  cases hsimple : Lexer.simpleToken first with
  | some kind =>
    rw [hsimple] at h
    cases h
  | none =>
    rw [hsimple] at h
    dsimp only at h
    by_cases hdot : (first == Patterns.ascii '.') = true
    · rw [if_pos hdot] at h
      by_cases hdigit : l.peekChar.any Patterns.isAsciiDigit = true
      · rw [if_pos hdigit] at h
        exact hnumber (by rw [startsNumeral, hdot, Bool.or_true]) h
      · rw [if_neg hdigit] at h
        cases h
    rw [if_neg hdot] at h
    -- Before a digit no other token has a literal but a string.
    by_cases hequal : (first == Patterns.ascii '=') = true
    · rw [if_pos hequal] at h
      cases h
    rw [if_neg hequal] at h
    by_cases hless : (first == Patterns.ascii '<') = true
    · rw [if_pos hless] at h
      cases h
    rw [if_neg hless] at h
    by_cases hgreater : (first == Patterns.ascii '>') = true
    · rw [if_pos hgreater] at h
      cases h
    rw [if_neg hgreater] at h
    by_cases htilde : (first == Patterns.ascii '~') = true
    · rw [if_pos htilde] at h
      split at h <;> cases h
    rw [if_neg htilde] at h
    by_cases hminus : (first == Patterns.ascii '-') = true
    · rw [if_pos hminus] at h
      split at h
      · rename_i l₁ _
        cases hskip : l₁.skipComment start with
        | error e => rw [hskip] at h; cases h
        | ok l₂ => rw [hskip] at h; cases h
      · cases h
    rw [if_neg hminus] at h
    by_cases hquote : (first == Patterns.ascii '\'' || first == Patterns.ascii '"') = true
    · rw [if_pos hquote] at h
      cases hstring : l.lexString first with
      | error e => rw [hstring] at h; cases h
      | ok r => rw [hstring] at h; cases h
    rw [if_neg hquote] at h
    by_cases hbracket : (first == Patterns.ascii '[') = true
    · rw [if_pos hbracket] at h
      split at h <;> cases h
    rw [if_neg hbracket] at h
    by_cases hdigit : Patterns.isAsciiDigit first = true
    · rw [if_pos hdigit] at h
      exact hnumber (by rw [startsNumeral, hdigit, Bool.true_or]) h
    rw [if_neg hdigit] at h
    split at h
    · split at h <;> cases h
    · cases h

/-- Every number of a token is that of a numeral without a sign. -/
theorem nextToken_text {l l' : Lexer} {token : Token} {v : F64}
    (h : l.nextToken ops = .ok ((token, some (.number v)), l')) :
    ∃ text : NumeralText, parseLuaNumeral ops text.bytes = some v := by
  rw [Lexer.nextToken] at h
  generalize l.remaining + 1 = fuel at h
  induction fuel generalizing l with
  | zero => cases h
  | succ fuel ih =>
    rw [Lexer.nextTokenLoop] at h
    cases hchar : l.consumeWhitespace.nextChar with
    | none =>
      rw [hchar] at h
      cases h
    | some r =>
      obtain ⟨first, l₁⟩ := r
      rw [hchar] at h
      obtain ⟨c, hc, hl₁⟩ := Option.map_eq_some_iff.1 hchar
      obtain ⟨rfl, rfl⟩ := Prod.mk.inj hl₁
      dsimp only at h
      split at h
      · cases h
      · rename_i lexed l₂ hlex
        obtain ⟨⟩ := h
        refine lexToken_text ?_ ?_ hlex
        · rw [Lexer.source_advance]
          exact hc
        · rw [Lexer.pos_advance]
          exact Nat.lt_succ_self _
      · exact ih h

/-! ## The pool has every number that is asked for -/

/-- Numbers with the same key are the same, but for the negative zero. -/
theorem numberLiteralKey_inj {x y : F64} {key : Nat} (hx : numberLiteralKey x = some key)
    (hy : numberLiteralKey y = some key) (hxz : x ≠ negZero) (hyz : y ≠ negZero) : x = y := by
  have hne : ∀ {z : F64}, z ≠ negZero → z.bits.toNat ≠ 2 ^ 63 := fun {z} hz h =>
    hz (F64.toNat_inj (h.trans (by decide)))
  have hx' := hne hxz
  have hy' := hne hyz
  have hxlt := x.bits.isLt
  have hylt := y.bits.isLt
  refine F64.toNat_inj ?_
  rw [numberLiteralKey] at hx hy
  split at hx
  · cases hx
  split at hy
  · cases hy
  simp only at hx hy
  split at hx <;> split at hy <;> rw [Option.some.injEq] at hx hy <;> omega

/-- A pool the parser can have: the index of a key is that of the literal with the key, every
    literal with a key can be found, none is the negative zero, and the answers were right. -/
structure NumberPool.Sound (p : NumberPool) : Prop where
  keyed : ∀ key index, p.indexOf key = some index →
    ∃ num, p.numberLiterals[index]? = some num ∧ numberLiteralKey num = some key
  found : ∀ num ∈ p.numberLiterals, ∀ key, numberLiteralKey num = some key → (p.indexOf key).isSome = true
  nonneg : negZero ∉ p.numberLiterals
  answers : ∀ r ∈ p.requests, r.1 ≠ negZero ∧ p.numberLiterals[r.2]? = some r.1

/-- What is asked for is at the index from then on, as literals are only added. -/
def Extends (p p' : NumberPool) : Prop := p.numberLiterals <+: p'.numberLiterals

theorem Extends.getElem? {p p' : NumberPool} (h : Extends p p') {i : Nat} {num : F64}
    (hi : p.numberLiterals[i]? = some num) : p'.numberLiterals[i]? = some num := by
  obtain ⟨t, ht⟩ := h
  rw [← ht, List.getElem?_append_left (List.getElem?_eq_some_iff.1 hi).1]
  exact hi

theorem sound_new : NumberPool.new.Sound where
  keyed _ _ h := nomatch h
  found _ h := nomatch h
  nonneg h := nomatch h
  answers _ h := nomatch h

namespace NumberPool

variable {p : NumberPool} {num : F64} {index : Nat}

theorem Sound.answered (h : p.Sound) (hnum : num ≠ negZero) (hindex : p.numberLiterals[index]? = some num) :
    (p.answered num index).Sound where
  keyed := h.keyed
  found := h.found
  nonneg := h.nonneg
  answers r hr := by
    rcases List.mem_cons.1 hr with rfl | hr
    · exact ⟨hnum, hindex⟩
    · exact h.answers r hr

theorem indexOf_push {key : Nat} : (p.push num).indexOf key =
    if numberLiteralKey num = some key then some p.numberLiterals.length else p.indexOf key := by
  rw [indexOf, push]
  cases numberLiteralKey num with
  | none => rfl
  | some k =>
    simp only [AssocList.lookup, List.find?_cons, Option.some.injEq]
    by_cases hk : k = key
    · simp [hk]
    · rw [if_neg hk, beq_eq_false_iff_ne.2 hk]
      rfl

theorem Sound.push (h : p.Sound) (hnum : num ≠ negZero) : (p.push num).Sound where
  keyed key index hi := by
    rw [indexOf_push] at hi
    split at hi
    · rename_i hkey
      obtain rfl := Option.some.inj hi
      exact ⟨num, List.getElem?_concat_length, hkey⟩
    · obtain ⟨n, hn, hkey⟩ := h.keyed key index hi
      exact ⟨n, @Extends.getElem? p (p.push num) (List.prefix_append _ _) _ _ hn, hkey⟩
  found n hn key hkey := by
    rw [indexOf_push]
    split
    · rfl
    · rename_i hne
      rcases List.mem_append.1 hn with hn | hn
      · exact h.found n hn key hkey
      · rw [List.mem_singleton.1 hn] at hkey
        exact absurd hkey hne
  nonneg hmem := by
    rcases List.mem_append.1 hmem with hmem | hmem
    · exact h.nonneg hmem
    · exact hnum (List.mem_singleton.1 hmem).symm
  answers r hr := by
    obtain ⟨hne, hi⟩ := h.answers r hr
    exact ⟨hne, @Extends.getElem? p (p.push num) (List.prefix_append _ _) _ _ hi⟩

end NumberPool

variable {p : NumberPool}

/-- The answer to a number is an index with the same bits. A full pool refuses one that it does not
    have. -/
theorem wp_findOrAddNumber (h : p.Sound) {num : F64} (hnum : num ≠ negZero) :
    wp (findOrAddNumber num)
      (fun i p' => p'.Sound ∧ Extends p p' ∧ p'.numberLiterals[i]? = some num)
      (fun err p' => err = .tooManyNumbers ∧ p' = p ∧ MAX_LITERALS ≤ p.numberLiterals.length ∧
        (num.isNan = false → num ∉ p.numberLiterals)) p := by
  rw [findOrAddNumber, Effect.wp_bind, Effect.wp_get]
  cases hfound : (numberLiteralKey num).bind p.indexOf with
  | some index =>
    obtain ⟨key, hkey, hindex⟩ := Option.bind_eq_some_iff.1 hfound
    obtain ⟨n, hn, hnkey⟩ := h.keyed key index hindex
    -- The literal of the key is no negative zero, so it is the number.
    have hne : n ≠ negZero := by
      rintro rfl
      exact h.nonneg (List.mem_of_getElem? hn)
    rw [numberLiteralKey_inj hnkey hkey hne hnum] at hn
    simp only [hfound, Effect.wp_bind, Effect.wp_modify, Effect.wp_pure]
    exact ⟨h.answered hnum hn, List.prefix_rfl, hn⟩
  | none =>
    simp only [hfound]
    refine wp_ite (fun _ => ?_) fun hfull => ?_
    · rw [Effect.wp_bind, Effect.wp_modify, Effect.wp_pure]
      have hlast : (p.push num).numberLiterals[p.numberLiterals.length]? = some num :=
        List.getElem?_concat_length
      exact ⟨(h.push hnum).answered hnum hlast, List.prefix_append _ _, hlast⟩
    · rw [Effect.wp_fail]
      refine ⟨rfl, rfl, Nat.le_of_not_lt hfull, fun hnan hmem => ?_⟩
      have hkey : ∃ key, numberLiteralKey num = some key := by
        rw [numberLiteralKey, hnan, if_neg Bool.false_ne_true]
        simp only
        split <;> exact ⟨_, rfl⟩
      obtain ⟨key, hkey⟩ := hkey
      have hsome := h.found num hmem key hkey
      rw [hkey, Option.bind_some] at hfound
      rw [hfound] at hsome
      cases hsome

theorem wp_numberLiteral {idx : Nat} {num : F64} (h : p.numberLiterals[idx]? = some num)
    {Q : F64 → NumberPool → Prop} {E : ParseError → NumberPool → Prop} :
    wp (numberLiteral idx) Q E p = Q num p := by
  rw [numberLiteral, Effect.wp_bind, Effect.wp_get]
  simp only [h, Effect.wp_pure]

/-- A result is pooled with its bits or not at all, and that is no error. -/
theorem wp_tryFoldLiteral (h : p.Sound) {value : F64} :
    wp (tryFoldLiteral value)
      (fun o p' => p'.Sound ∧ Extends p p' ∧ ∀ i, o = some i → p'.numberLiterals[i]? = some value)
      (fun _ _ => False) p := by
  rw [tryFoldLiteral]
  refine wp_ite (fun _ => ?_) fun hfold => ?_
  · rw [Effect.wp_pure]
    exact ⟨h, List.prefix_rfl, nofun⟩
  · have hne : value ≠ negZero := ne_negZero fun hz => hfold (by rw [hz, Bool.or_true])
    rw [Effect.wp_bind, Effect.wp_attempt]
    refine wp_mono (wp_findOrAddNumber h hne) (fun i p' hi => ?_) fun err p' he => ?_
    · obtain ⟨hsound, hextends, hi⟩ := hi
      rw [Effect.wp_pure]
      refine ⟨hsound, hextends, fun j hj => ?_⟩
      rw [← Option.some.inj hj]
      exact hi
    · obtain ⟨rfl, rfl, -⟩ := he
      exact ⟨h, List.prefix_rfl, nofun⟩

/-! ## The tree has the value of the source -/

section Tree

variable {arith : ArithOp → F64 → F64 → F64}

mutual

/-- A tree keeps its value when literals are added. -/
theorem ExprKind.eval_prefix {K K' : List F64} (h : K <+: K') (k : ExprKind) {v : F64}
    (hv : k.eval arith K = some v) : k.eval arith K' = some v := by
  cases k with
  | num idx =>
    rw [ExprKind.eval] at hv ⊢
    obtain ⟨t, rfl⟩ := h
    rw [List.getElem?_append_left (List.getElem?_eq_some_iff.1 hv).1]
    exact hv
  | neg operand =>
    rw [ExprKind.eval] at hv ⊢
    obtain ⟨x, hx, rfl⟩ := Option.map_eq_some_iff.1 hv
    rw [operand.eval_prefix h hx, Option.map_some]
  | pow base exponent =>
    rw [ExprKind.eval] at hv ⊢
    obtain ⟨x, hx, hv⟩ := Option.bind_eq_some_iff.1 hv
    obtain ⟨y, hy, hv⟩ := Option.bind_eq_some_iff.1 hv
    rw [base.eval_prefix h hx, exponent.eval_prefix h hy]
    exact hv
  | arith first rest =>
    rw [ExprKind.eval] at hv ⊢
    obtain ⟨x, hx, hv⟩ := Option.bind_eq_some_iff.1 hv
    rw [first.eval_prefix h hx]
    exact evalLinks_prefix h rest hv

theorem evalLinks_prefix {K K' : List F64} (h : K <+: K') (rest : List (ArithOp × ExprKind)) {x v : F64}
    (hv : evalLinks arith K x rest = some v) : evalLinks arith K' x rest = some v := by
  match rest with
  | [] => exact hv
  | (op, rhs) :: rest =>
    rw [evalLinks] at hv ⊢
    obtain ⟨y, hy, hv⟩ := Option.bind_eq_some_iff.1 hv
    rw [rhs.eval_prefix h hy]
    exact evalLinks_prefix h rest hv

end

theorem evalLinks_append {K : List F64} {links : List (ArithOp × ExprKind)} {op : ArithOp} {rhs : ExprKind}
    {x v y : F64} (hv : evalLinks arith K x links = some v) (hy : rhs.eval arith K = some y) :
    evalLinks arith K x (links ++ [(op, rhs)]) = some (arith op v y) := by
  induction links generalizing x with
  | nil =>
    obtain rfl : x = v := Option.some.inj hv
    rw [List.nil_append, evalLinks, hy]
    rfl
  | cons link links ih =>
    rw [evalLinks] at hv
    obtain ⟨z, hz, hv⟩ := Option.bind_eq_some_iff.1 hv
    rw [List.cons_append, evalLinks, hz]
    exact ih hv

/-- The value of a chain under construction. -/
def ChainBuilder.eval (arith : ArithOp → F64 → F64 → F64) (K : List F64) (chain : ChainBuilder) : Option F64 := do
  evalLinks arith K (← chain.first.eval arith K) chain.rest

theorem ChainBuilder.eval_finish {K : List F64} {chain : ChainBuilder} {v : F64}
    (hv : chain.eval arith K = some v) : chain.finish.eval arith K = some v := by
  rw [ChainBuilder.finish]
  split
  · rename_i hrest
    obtain ⟨x, hx, hv⟩ := Option.bind_eq_some_iff.1 hv
    rw [List.isEmpty_iff.1 hrest] at hv
    rw [hx, ← hv, evalLinks]
  · rw [ExprKind.eval]
    exact hv

theorem ChainBuilder.eval_append {K : List F64} {chain : ChainBuilder} {op : ArithOp} {rhs : ExprKind}
    {v y : F64} (hv : chain.eval arith K = some v) (hy : rhs.eval arith K = some y) :
    (chain.append op rhs).eval arith K = some (arith op v y) := by
  obtain ⟨x, hx, hv⟩ := Option.bind_eq_some_iff.1 hv
  rw [ChainBuilder.eval, ChainBuilder.append, hx]
  exact evalLinks_append hv hy

theorem ChainBuilder.eval_prefix {K K' : List F64} (h : K <+: K') {chain : ChainBuilder} {v : F64}
    (hv : chain.eval arith K = some v) : chain.eval arith K' = some v := by
  obtain ⟨x, hx, hv⟩ := Option.bind_eq_some_iff.1 hv
  rw [ChainBuilder.eval, chain.first.eval_prefix h hx]
  exact evalLinks_prefix h _ hv

/-- Negating a tree negates its value, folded or not, and never fails. -/
theorem wp_negate (h : p.Sound) {k : ExprKind} {v : F64} (hv : k.eval arith p.numberLiterals = some v) :
    wp (negate k)
      (fun k' p' => p'.Sound ∧ Extends p p' ∧ k'.eval arith p'.numberLiterals = some v.neg)
      (fun _ _ => False) p := by
  have hneg : ∀ p' : NumberPool, Extends p p' → (ExprKind.neg k).eval arith p'.numberLiterals = some v.neg :=
    fun p' hextends => by rw [ExprKind.eval, k.eval_prefix hextends hv, Option.map_some]
  cases k with
  | num idx =>
    rw [ExprKind.eval] at hv
    rw [negate, Effect.wp_bind, wp_numberLiteral hv]
    simp only [Effect.wp_bind]
    refine Effect.wp_mono_ok (wp_tryFoldLiteral h) fun o p' ho => ?_
    obtain ⟨hsound, hextends, hindex⟩ := ho
    cases o with
    | some folded => exact ⟨hsound, hextends, by rw [ExprKind.eval]; exact hindex folded rfl⟩
    | none => exact ⟨hsound, hextends, hneg p' hextends⟩
  | _ => exact ⟨h, List.prefix_rfl, hneg p List.prefix_rfl⟩

/-- Adding an operand to a chain applies the operator, folded or not, and never fails. -/
theorem ChainBuilder.wp_push (h : p.Sound) {chain : ChainBuilder} {op : ArithOp} {rhs : ExprKind} {v y : F64}
    (hv : chain.eval arith p.numberLiterals = some v) (hy : rhs.eval arith p.numberLiterals = some y) :
    wp (chain.push arith op rhs)
      (fun chain' p' => p'.Sound ∧ Extends p p' ∧ chain'.eval arith p'.numberLiterals = some (arith op v y))
      (fun _ _ => False) p := by
  have happend : ∀ p' : NumberPool, Extends p p' →
      (chain.append op rhs).eval arith p'.numberLiterals = some (arith op v y) := fun p' hextends =>
    ChainBuilder.eval_append (chain.eval_prefix hextends hv) (rhs.eval_prefix hextends hy)
  rw [ChainBuilder.push.eq_def]
  split
  · -- The chain is one literal.
    rename_i lhs rhsIdx hcond hfirst
    rw [Bool.and_eq_true] at hcond
    obtain ⟨x, hx, hv⟩ := Option.bind_eq_some_iff.1 hv
    rw [hfirst, ExprKind.eval] at hx
    rw [List.isEmpty_iff.1 hcond.1, evalLinks, Option.some.injEq] at hv
    subst hv
    rw [ExprKind.eval] at hy
    rw [Effect.wp_bind, wp_numberLiteral hx, Effect.wp_bind, wp_numberLiteral hy]
    simp only [Effect.wp_bind]
    refine Effect.wp_mono_ok (wp_tryFoldLiteral h) fun o p' ho => ?_
    obtain ⟨hsound, hextends, hindex⟩ := ho
    cases o with
    | some folded =>
      refine ⟨hsound, hextends, ?_⟩
      rw [ChainBuilder.eval, ExprKind.eval, hindex folded rfl, List.isEmpty_iff.1 hcond.1]
      rfl
    | none => exact ⟨hsound, hextends, happend p' hextends⟩
  · exact ⟨h, List.prefix_rfl, happend p List.prefix_rfl⟩

end Tree

/-! ## Every expression -/

mutual

/-- The numerals of an expression. -/
def Source.literals : Source → List NumeralText
  | .literal text => [text]
  | .paren inner => inner.literals
  | .neg operand => operand.literals
  | .pow base exponent => base.literals ++ exponent.literals
  | .chain c => c.literals

def Chain.literals : Chain → List NumeralText
  | .first operand => operand.literals
  | .push c _ rhs => c.literals ++ rhs.literals

end

/-- A numeral of the source is refused where it is malformed, or where the pool is full and does not
    have it. -/
def Refused (ops : FloatOps) (texts : List NumeralText) (err : ParseError) (p : NumberPool) : Prop :=
  ∃ text ∈ texts,
    (parseLuaNumeral ops text.bytes = none ∧ err = .badNumber) ∨
      ∃ num, parseLuaNumeral ops text.bytes = some num ∧ err = .tooManyNumbers ∧
        MAX_LITERALS ≤ p.numberLiterals.length ∧ num ∉ p.numberLiterals

theorem Refused.mono {texts texts' : List NumeralText} {err : ParseError} (h : Refused ops texts err p)
    (hsub : texts ⊆ texts') : Refused ops texts' err p := by
  obtain ⟨text, hmem, h⟩ := h
  exact ⟨text, hsub hmem, h⟩

section Source

variable {arith : ArithOp → F64 → F64 → F64}

mutual

/-- The tree of an expression has its value, bit for bit, and only a numeral is refused. -/
theorem Source.wp_parse (hops : ReadsUnsigned ops) {p : NumberPool} (h : p.Sound) (e : Source) :
    wp (e.parse ops arith)
      (fun k p' => p'.Sound ∧ Extends p p' ∧
        ∃ v, e.eval ops arith = some v ∧ k.eval arith p'.numberLiterals = some v)
      (fun err p' => p'.Sound ∧ Extends p p' ∧ Refused ops e.literals err p') p := by
  cases e with
  | literal text =>
    rw [Source.parse, lexLiteral, Effect.wp_bind]
    cases hnum : parseLuaNumeral ops text.bytes with
    | none => exact ⟨h, List.prefix_rfl, text, List.mem_singleton_self _, .inl ⟨hnum, rfl⟩⟩
    | some num =>
      obtain ⟨hsign, hnan⟩ := parseLuaNumeral_nonneg hops text hnum
      have hne : num ≠ negZero := by
        rintro rfl
        exact absurd hsign (by decide)
      rw [Effect.wp_pure, Effect.wp_bind]
      refine wp_mono (wp_findOrAddNumber h hne) (fun i p' hi => ?_) fun err p' he => ?_
      · exact ⟨hi.1, hi.2.1, num, by rw [Source.eval, hnum], by rw [ExprKind.eval]; exact hi.2.2⟩
      · obtain ⟨rfl, rfl, hfull, hmem⟩ := he
        exact ⟨h, List.prefix_rfl, text, List.mem_singleton_self _, .inr ⟨num, hnum, rfl, hfull, hmem hnan⟩⟩
  | paren inner =>
    rw [Source.parse, Source.eval, Source.literals]
    exact inner.wp_parse hops h
  | neg operand =>
    rw [Source.parse, Source.eval, Source.literals, Effect.wp_bind]
    refine Effect.wp_mono_ok (operand.wp_parse hops h) fun k p' hk => ?_
    obtain ⟨hsound, hextends, v, hev, hkv⟩ := hk
    refine wp_mono (wp_negate hsound hkv) (fun k' p'' hk' => ?_) fun _ _ => False.elim
    exact ⟨hk'.1, hextends.trans hk'.2.1, v.neg, by rw [hev, Option.map_some], hk'.2.2⟩
  | pow base exponent =>
    rw [Source.parse, Source.eval, Source.literals, Effect.wp_bind]
    refine wp_mono (base.wp_parse hops h) (fun b p' hb => ?_) fun err p' he =>
      ⟨he.1, he.2.1, he.2.2.mono (List.subset_append_left _ _)⟩
    obtain ⟨hsound, hextends, v, hev, hbv⟩ := hb
    rw [Effect.wp_bind]
    refine wp_mono (exponent.wp_parse hops hsound) (fun x p'' hx => ?_) fun err p'' he =>
      ⟨he.1, hextends.trans he.2.1, he.2.2.mono (List.subset_append_right _ _)⟩
    obtain ⟨hsound', hextends', w, hew, hxw⟩ := hx
    refine ⟨hsound', hextends.trans hextends', arith .pow v w, by rw [hev, hew]; rfl, ?_⟩
    rw [ExprKind.eval, b.eval_prefix hextends' hbv, hxw]
    rfl
  | chain c =>
    rw [Source.parse, Source.eval, Source.literals, Effect.wp_bind]
    refine Effect.wp_mono_ok (c.wp_parse hops h) fun chain p' hc => ?_
    obtain ⟨hsound, hextends, v, hev, hcv⟩ := hc
    exact ⟨hsound, hextends, v, hev, ChainBuilder.eval_finish hcv⟩

theorem Chain.wp_parse (hops : ReadsUnsigned ops) {p : NumberPool} (h : p.Sound) (c : Chain) :
    wp (c.parse ops arith)
      (fun chain p' => p'.Sound ∧ Extends p p' ∧
        ∃ v, c.eval ops arith = some v ∧ chain.eval arith p'.numberLiterals = some v)
      (fun err p' => p'.Sound ∧ Extends p p' ∧ Refused ops c.literals err p') p := by
  cases c with
  | first operand =>
    rw [Chain.parse, Chain.eval, Chain.literals, Effect.wp_bind]
    refine Effect.wp_mono_ok (operand.wp_parse hops h) fun k p' hk => ?_
    obtain ⟨hsound, hextends, v, hev, hkv⟩ := hk
    refine ⟨hsound, hextends, v, hev, ?_⟩
    rw [ChainBuilder.eval, ChainBuilder.new, hkv]
    rfl
  | push c op rhs =>
    rw [Chain.parse, Chain.eval, Chain.literals, Effect.wp_bind]
    refine wp_mono (c.wp_parse hops h) (fun chain p' hc => ?_) fun err p' he =>
      ⟨he.1, he.2.1, he.2.2.mono (List.subset_append_left _ _)⟩
    obtain ⟨hsound, hextends, v, hev, hcv⟩ := hc
    rw [Effect.wp_bind]
    refine wp_mono (rhs.wp_parse hops hsound) (fun k p'' hk => ?_) fun err p'' he =>
      ⟨he.1, hextends.trans he.2.1, he.2.2.mono (List.subset_append_right _ _)⟩
    obtain ⟨hsound', hextends', w, hew, hkw⟩ := hk
    refine wp_mono (ChainBuilder.wp_push hsound' (chain.eval_prefix hextends' hcv) hkw)
      (fun chain' p₃ hp => ?_) fun _ _ => False.elim
    exact ⟨hp.1, (hextends.trans hextends').trans hp.2.1, arith op v w, by rw [hev, hew]; rfl, hp.2.2⟩

end

/-- Parsing the items of a function keeps the pool. -/
theorem wp_parseItems (hops : ReadsUnsigned ops) (h : p.Sound) (items : List Item) :
    wp (parseItems ops arith items) (fun _ p' => p'.Sound ∧ Extends p p')
      (fun _ p' => p'.Sound ∧ Extends p p') p := by
  induction items generalizing p with
  | nil => exact ⟨h, List.prefix_rfl⟩
  | cons item rest ih =>
    cases item with
    | expr e =>
      rw [parseItems, Effect.wp_bind]
      refine wp_mono (Source.wp_parse hops h e) (fun k p' hk => ?_) fun err p' he => ⟨he.1, he.2.1⟩
      exact wp_mono (ih hk.1) (fun _ p'' hp => ⟨hp.1, hk.2.1.trans hp.2⟩)
        fun _ p'' hp => ⟨hp.1, hk.2.1.trans hp.2⟩
    | forStep =>
      rw [parseItems, Effect.wp_bind]
      have hone : F64.ofNat 1 ≠ negZero := by decide
      refine wp_mono (wp_findOrAddNumber h hone) (fun i p' hi => ?_) fun err p' he => ?_
      · exact wp_mono (ih hi.1) (fun _ p'' hp => ⟨hp.1, hi.2.1.trans hp.2⟩)
          fun _ p'' hp => ⟨hp.1, hi.2.1.trans hp.2⟩
      · rw [he.2.1]
        exact ⟨h, List.prefix_rfl⟩

end Source

variable {arith : ArithOp → F64 → F64 → F64}

/-- Wherever an expression stands in a function, its tree has the value of the expression at run time
    over the literals of the finished function, and it is refused only for one of its numerals; and
    whatever was parsed, every number that was asked for is at the index that was answered, and
    none is the negative zero. -/
theorem folding_exact (hops : ReadsUnsigned ops) (arith : ArithOp → F64 → F64 → F64) (before after : List Item)
    (e : Source) {p₁ : NumberPool} (hbefore : parseItems ops arith before NumberPool.new = .ok () p₁) :
    (∀ k p₂ p₃, e.parse ops arith p₁ = .ok k p₂ → parseItems ops arith after p₂ = .ok () p₃ →
      ∃ v, e.eval ops arith = some v ∧ k.eval arith p₃.numberLiterals = some v) ∧
    (∀ err p₂, e.parse ops arith p₁ = .fail err p₂ → Refused ops e.literals err p₂) ∧
    ∀ items p, (parseItems ops arith items NumberPool.new = .ok () p ∨
        ∃ err, parseItems ops arith items NumberPool.new = .fail err p) →
      ∀ r ∈ p.requests, r.1 ≠ negZero ∧ p.numberLiterals[r.2]? = some r.1 := by
  have hsound := ((wp_parseItems hops sound_new before).ok hbefore).1
  have hparse : wp (e.parse ops arith) (fun k p' => p'.Sound ∧ Extends p₁ p' ∧
      ∃ v, e.eval ops arith = some v ∧ k.eval arith p'.numberLiterals = some v)
      (fun err p' => p'.Sound ∧ Extends p₁ p' ∧ Refused ops e.literals err p') p₁ := Source.wp_parse hops hsound e
  refine ⟨fun k p₂ p₃ hk hafter => ?_, fun err p₂ hfail => (hparse.error hfail).2.2, fun items p hp => ?_⟩
  · obtain ⟨hsound₂, -, v, hev, hkv⟩ := hparse.ok hk
    have hextends := ((wp_parseItems hops hsound₂ after).ok hafter).2
    exact ⟨v, hev, k.eval_prefix hextends hkv⟩
  · have hitems : wp (parseItems ops arith items) (fun _ p' => p'.Sound ∧ Extends NumberPool.new p')
        (fun _ p' => p'.Sound ∧ Extends NumberPool.new p') NumberPool.new := wp_parseItems hops sound_new items
    rcases hp with hp | ⟨err, hp⟩
    · exact (hitems.ok hp).1.answers
    · exact (hitems.error hp).1.answers

/-- A reader of decimals of one digit. -/
def digitOps : FloatOps where
  parseF64 bytes :=
    match bytes with
    | [byte] => if Patterns.isAsciiDigit byte then some (F64.ofNat (byte.toNat - 48)) else none
    | _ => none
  mul x _ := x

theorem readsUnsigned_digitOps : ReadsUnsigned digitOps := by
  intro bytes x _ h
  match bytes with
  | [] => cases h
  | _ :: _ :: _ => cases h
  | [byte] =>
    have hall : ((List.range 256).all fun n => !(F64.ofNat (n - 48)).sign && !(F64.ofNat (n - 48)).isNan) = true := by
      decide +kernel
    have hbyte := List.all_eq_true.1 hall byte.toNat (List.mem_range.2 byte.toNat_lt)
    rw [Bool.and_eq_true, Bool.not_eq_true', Bool.not_eq_true'] at hbyte
    rw [digitOps] at h
    simp only at h
    split at h
    · rw [← Option.some.inj h]
      exact hbyte
    · cases h

/-- Two after a numeric loop without a step, negated: the literal of the result is the third. -/
theorem folding_exact_negated :
    ∃ v, (Source.neg (.literal ⟨[Patterns.ascii '2'], rfl⟩)).eval digitOps (fun _ x _ => x) = some v ∧
      (ExprKind.num 2).eval (fun _ x _ => x) [F64.ofNat 1, F64.ofNat 2, (F64.ofNat 2).neg] = some v :=
  (folding_exact readsUnsigned_digitOps (fun _ x _ => x) [.forStep] []
    (.neg (.literal ⟨[Patterns.ascii '2'], rfl⟩)) rfl).1 _ _ _ rfl rfl

end Dellingr.Folding
