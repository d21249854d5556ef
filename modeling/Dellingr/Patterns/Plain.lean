import Dellingr.Patterns.ReferenceSearch

/-!
# Patterns without magic

A pattern none of whose bytes is magic matches itself (`doMatch_plain`), so a search of it finds
its first occurrence (`strFind_plain`). Each of its bytes is an item of its own, and none goes
deeper (`deepens_plain`): a search of such a pattern is stopped by the interrupt or the budget
alone.
-/

namespace Dellingr.Patterns

open Effect

/-- Whether the compiler gives a byte a meaning of its own. -/
def isPatternMagic (byte : UInt8) : Bool := ("^$*+?.([%-)".toList.map ascii).contains byte

/-- Whether every byte of a pattern is literal to the compiler. -/
def isPlain (pattern : List UInt8) : Bool := !pattern.any isPatternMagic

/-- Whether `string.find` may search for the pattern as it stands. A `)` is literal to it. -/
def isPlainForFind (pattern : List UInt8) : Bool :=
  !pattern.any fun byte => isPatternMagic byte && byte != ascii ')'

variable {pattern subject text : List UInt8} {byte : UInt8}

theorem isPlain_cons :
    isPlain (byte :: text) = true ↔ isPatternMagic byte = false ∧ isPlain text = true := by
  simp [isPlain]

theorem isPlainForFind_of_isPlain (h : isPlain pattern = true) : isPlainForFind pattern = true := by
  simp only [isPlain, isPlainForFind, Bool.not_eq_true', List.any_eq_false] at h ⊢
  intro b hb hm
  rw [Bool.and_eq_true] at hm
  exact h b hb hm.1

theorem ne_of_literal {magic : UInt8} (h : isPatternMagic byte = false)
    (hm : isPatternMagic magic = true) : byte ≠ magic := by
  rintro rfl
  exact nomatch h.symm.trans hm

theorem head_ne_of_isPlain {magic : UInt8} (h : isPlain text = true)
    (hm : isPatternMagic magic = true) : text.head? ≠ some magic := by
  cases text with
  | nil => exact nofun
  | cons b text =>
    rw [List.head?_cons, Ne, Option.some.injEq]
    exact ne_of_literal (isPlain_cons.1 h).1 hm

/-- A literal byte is an item. -/
theorem atomStarts_of_literal (h : isPatternMagic byte = false) : AtomStarts byte text where
  opening := ne_of_literal h rfl
  closing := ne_of_literal h rfl
  anchor h' := ne_of_literal h rfl h'.1
  escape h' := absurd h' (ne_of_literal h rfl)

theorem repeatSuffix_of_isPlain (h : isPlain text = true) : Compiler.repeatSuffix text = .one := by
  rw [Reference.repeatSuffix_eq, if_neg (head_ne_of_isPlain h rfl), if_neg (head_ne_of_isPlain h rfl),
    if_neg (head_ne_of_isPlain h rfl), if_neg (head_ne_of_isPlain h rfl)]

/-! ## What they match -/

namespace Reference

variable {lone : UInt8 → Bool} {fuel s : Nat} {caps : List Capture}

theorem singleItem_of_literal (h : isPatternMagic byte = false) :
    singleItem lone byte text = .ok (fun c => byte == c, text) := by
  unfold singleItem
  rw [if_neg (ne_of_literal h rfl), if_neg (ne_of_literal h rfl), if_neg (ne_of_literal h rfl)]

/-- A plain pattern matches itself. -/
theorem doMatch_plain (h : isPlain pattern = true) (hf : pattern.length ≤ fuel) :
    doMatch lone subject fuel pattern s caps =
      .ok (if pattern <+: subject.drop s then some (s + pattern.length, caps) else none) := by
  induction pattern generalizing fuel s with
  | nil => rw [doMatch, if_pos (List.nil_prefix), List.length_nil, Nat.add_zero]
  | cons byte text ih =>
    obtain ⟨hb, ht⟩ := isPlain_cons.1 h
    obtain ⟨fuel, rfl⟩ : ∃ n, fuel = n + 1 := Nat.exists_eq_succ_of_ne_zero fun h0 => by
      rw [h0] at hf
      cases hf
    rw [doMatch_atom (atomStarts_of_literal hb), matchDefault_eq (singleItem_of_literal hb),
      repeatSuffix_of_isPlain ht]
    simp only
    rw [ih ht (Nat.le_of_succ_le_succ hf)]
    by_cases hs : s < subject.length
    · rw [List.drop_eq_getElem_cons hs, List.getElem?_eq_getElem hs, Option.any_some]
      simp only [List.cons_prefix_cons, beq_iff_eq, List.length_cons]
      by_cases heq : byte = subject[s]
      · simp only [heq, true_and, ↓reduceIte, Nat.add_assoc, Nat.add_comm 1]
      · simp only [heq, false_and, ↓reduceIte]
    · rw [List.drop_eq_nil_of_le (Nat.le_of_not_lt hs), List.getElem?_eq_none (Nat.le_of_not_lt hs)]
      simp

/-- The first occurrence of a string, from a position on with so many bytes after it. -/
def firstOccurrence (subject pattern : List UInt8) : Nat → Nat → Option Nat
  | n, pos =>
    if pattern <+: subject.drop pos then some pos
    else
      match n with
      | 0 => none
      | n + 1 => firstOccurrence subject pattern n (pos + 1)

theorem searchLoop_plain (h : isPlain pattern = true) {n : Nat} :
    searchLoop lone subject false pattern n s =
      .ok ((firstOccurrence subject pattern n s).map fun start => (start, start + pattern.length, [])) := by
  induction n generalizing s with
  | zero =>
    rw [searchLoop, firstOccurrence, doMatch_plain h (Nat.le_refl _)]
    split <;> simp_all
  | succ n ih =>
    rw [searchLoop, firstOccurrence, doMatch_plain h (Nat.le_refl _)]
    by_cases hp : pattern <+: subject.drop s
    · simp only [if_pos hp, Option.map_some]
    · simp only [if_neg hp, Bool.false_eq_true, ↓reduceIte, ih]

/-- A search of a plain pattern finds its first occurrence. -/
theorem strFind_plain (h : isPlain pattern = true) (mode : AnchorMode) (init : Nat) :
    strFind lone subject pattern mode init =
      .ok ((firstOccurrence subject pattern (subject.length - init) init).map
        fun start => (start, start + pattern.length, [])) := by
  have hhead : (pattern.head? == some (ascii '^')) = false :=
    beq_false_of_ne (head_ne_of_isPlain h rfl)
  unfold strFind
  simp only [hhead, Bool.and_false, Bool.false_eq_true, ↓reduceIte]
  exact searchLoop_plain h

end Reference

/-! ## Their items -/

/-- No item of a plain pattern goes deeper. -/
theorem Compiled.deepens_plain {classes : List ByteClass} {captures : Nat} {c : Compiler}
    {items : List Item} (h : Compiled classes captures c items) (hp : isPlain c.rest = true) :
    items.countP Item.deepens = 0 := by
  induction h with
  | nil => rfl
  | fail => rfl
  | @cons c c' item items hread hpre hcomp ih =>
    cases hread with
    | position hr | start hr | finish hr | balance hr | frontier hr | backref hr | endAnchor hr =>
      rw [hr] at hp
      exact absurd (isPlain_cons.1 hp).1 (by decide)
    | @atom byte text rest cls hr ha hs =>
      rw [hr] at hp
      obtain ⟨hb, ht⟩ := isPlain_cons.1 hp
      rw [Reference.singleItem_of_literal hb] at hs
      obtain rfl : text = rest := (Prod.mk.inj (Except.ok.inj hs)).2
      have hone := repeatSuffix_of_isPlain ht
      have hrest : ({ c with rest := text }.pushAtom cls).rest = text := by
        rw [Reads.pushAtom_rest, if_pos hone]
      rw [List.countP_cons, ih (hrest.symm ▸ ht), hone]
      rfl

theorem deepens_plain (h : isPlain pattern = true) (mode : AnchorMode) :
    (compile pattern mode).items.countP Item.deepens = 0 := by
  refine (compile_compiled pattern mode).deepens_plain ?_
  rw [Compiler.new, compiledText, beq_false_of_ne (head_ne_of_isPlain h rfl)]
  simpa using h

end Dellingr.Patterns
