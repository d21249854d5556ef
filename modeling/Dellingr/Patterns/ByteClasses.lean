import Dellingr.Patterns.Reference

/-!
# Classes of bytes

The set of bytes that the compiler builds for a class has the bytes that the reference's test
accepts: for an escaped byte (`contains_escapeClass`) and for the body of a bracketed class
(`contains_bracketMembers`), whose end both find at the same place (`bracketBody_eq`).

The readings of a bracketed class with different meanings of a `%` that stands alone before the
closing bracket agree on the bodies that leave no such `%` (`matchBracketClass_congr`).
-/

namespace Dellingr.Patterns

/-! ## Sets of bytes -/

namespace ByteClass

variable {c : ByteClass} {b x : UInt8}

@[simp] theorem contains_empty : empty.contains x = false := by
  rw [contains, empty]
  exact BitVec.getLsbD_zero

@[simp] theorem contains_insert : (c.insert b).contains x = (c.contains x || b == x) := by
  have hx := x.toNat_lt
  rw [contains, insert, BitVec.getLsbD_or, ← contains, BitVec.getLsbD_shiftLeft, BitVec.getLsbD_one]
  congr 1
  rw [Bool.eq_iff_iff]
  simp only [Bool.and_eq_true, decide_eq_true_eq, Bool.not_eq_true', decide_eq_false_iff_not,
    beq_iff_eq, ← UInt8.toNat_inj]
  omega

@[simp] theorem contains_union {d : ByteClass} :
    (c.union d).contains x = (c.contains x || d.contains x) := by
  rw [contains, union, BitVec.getLsbD_or, ← contains, ← contains]

@[simp] theorem contains_invert : c.invert.contains x = !c.contains x := by
  rw [contains, invert, BitVec.getLsbD_not, decide_eq_true x.toNat_lt, Bool.true_and, ← contains]

/-- Inserting the bytes of a list that pass a test. -/
theorem contains_foldl_insert {p : UInt8 → Bool} {l : List UInt8} :
    (l.foldl (fun c b => if p b then c.insert b else c) c).contains x =
      (c.contains x || (decide (x ∈ l) && p x)) := by
  induction l generalizing c with
  | nil => simp
  | cons b l ih =>
    rw [List.foldl_cons, ih]
    by_cases hx : x = b
    · subst hx
      cases p x <;> simp
    · have hb : (b == x) = false := beq_false_of_ne (Ne.symm hx)
      split <;> simp [hx, hb]

end ByteClass

theorem mem_byteRange {first last x : UInt8} : x ∈ byteRange first last ↔ first ≤ x ∧ x ≤ last := by
  simp only [byteRange, List.mem_filter, List.mem_map, List.mem_range, Bool.and_eq_true,
    decide_eq_true_eq, and_iff_right_iff_imp]
  exact fun _ => ⟨x.toNat, x.toNat_lt, UInt8.ofNat_toNat⟩

/-- A letter that names no class is itself. -/
theorem tableMatchClass_eq_beq {cls : UInt8} (h : escapeClassLetters.contains cls = false)
    (x : UInt8) : tableMatchClass x cls = (cls == x) := by
  have hlower : ((List.range 256).all fun n => escapeClassLetters.contains (.ofNat n) ||
      !"acdglpsuwxz".toList.contains (Char.ofNat (toAsciiLowercase (.ofNat n)).toNat)) = true := by
    decide +kernel
  have hletter : ∀ c ∈ "acdglpsuwxz".toList, Char.ofNat (toAsciiLowercase cls).toNat ≠ c := by
    rintro c hc rfl
    have hcls := List.all_eq_true.1 hlower cls.toNat (List.mem_range.2 cls.toNat_lt)
    rw [UInt8.ofNat_toNat, h, Bool.false_or, List.contains_iff_mem.2 hc] at hcls
    cases hcls
  unfold tableMatchClass
  simp only
  split
  all_goals first | rfl | (rename_i hc; exact absurd hc (hletter _ (by decide)))

/-- The class of an escaped byte. -/
@[simp] theorem contains_escapeClass {cls x : UInt8} :
    (escapeClass cls).contains x = tableMatchClass x cls := by
  rw [escapeClass]
  split
  · have hx : x ∈ byteRange 0 255 := mem_byteRange.2 ⟨UInt8.zero_le, UInt8.le_iff_toNat_le.2 (Nat.le_of_lt_succ x.toNat_lt)⟩
    rw [ByteClass.contains_foldl_insert, ByteClass.contains_empty, decide_eq_true hx]
    rfl
  · rw [tableMatchClass_eq_beq (Bool.eq_false_iff.2 ‹_›), ByteClass.contains_insert,
      ByteClass.contains_empty, Bool.false_or]

/-! ## Bracketed classes -/

/-- The body of a bracketed class ends where the reference ends it. -/
theorem bracketBody_eq (body text : List UInt8) :
    bracketBody body text = (Reference.classEnd text).map fun r => (body ++ r.1, r.2) := by
  fun_induction bracketBody body text with
  | case1 | case2 => rfl
  | case3 body c =>
    unfold Reference.classEnd
    rw [if_pos rfl]
    rfl
  | case4 body c rest =>
    unfold Reference.classEnd
    rw [if_pos rfl]
    simp only [↓reduceIte]
    rfl
  | case5 body c d rest hd ih =>
    have hend : Reference.classEnd (lEsc :: c :: d :: rest) =
        (Reference.classEnd (d :: rest)).map fun r => (lEsc :: c :: r.1, r.2) := by
      conv_lhs => unfold Reference.classEnd
      simp only [↓reduceIte, if_neg hd]
    rw [ih, hend]
    cases Reference.classEnd (d :: rest) with
    | error e => rfl
    | ok r => simp only [Except.map, List.append_assoc, List.cons_append, List.nil_append]
  | case6 body b rest hb =>
    unfold Reference.classEnd
    rw [if_neg hb, if_pos rfl]
    rfl
  | case7 body b c rest hb hc ih =>
    have hend : Reference.classEnd (b :: c :: rest) =
        (Reference.classEnd (c :: rest)).map fun r => (b :: r.1, r.2) := by
      conv_lhs => unfold Reference.classEnd
      rw [if_neg hb, if_neg hc]
    rw [ih, hend]
    cases Reference.classEnd (c :: rest) with
    | error e => rfl
    | ok r => simp only [Except.map, List.append_assoc, List.cons_append, List.nil_append]

/-- The set built from the body of a class has the bytes the reference accepts, with a `%` that
    stands alone taken for itself. -/
theorem contains_bracketMembers (cls : ByteClass) (body : List UInt8) (x : UInt8) :
    (bracketMembers cls body).contains x =
      (cls.contains x || Reference.matchBracketClass Reference.literalLone x body) := by
  fun_induction bracketMembers cls body with
  | case1 => rw [Reference.matchBracketClass, Bool.or_false]
  | case2 cls b =>
    rw [Reference.matchBracketClass, ByteClass.contains_insert]
    split
    · rename_i hb
      rw [hb, Reference.literalLone]
    · rfl
  | case3 cls c =>
    rw [Reference.matchBracketClass, if_pos rfl, ByteClass.contains_union, contains_escapeClass]
  | case4 cls b c hb ih =>
    have htest : Reference.matchBracketClass Reference.literalLone x [b, c] =
        (b == x || Reference.matchBracketClass Reference.literalLone x [c]) := if_neg hb
    rw [ih, htest, ByteClass.contains_insert, Bool.or_assoc]
  | case5 cls c d rest ih =>
    rw [ih, Reference.matchBracketClass, if_pos rfl, ByteClass.contains_union, contains_escapeClass,
      Bool.or_assoc]
  | case6 cls b d rest hb ih =>
    have hrange : (b ≤ x && x ≤ d : Bool) = (decide (x ∈ byteRange b d) && true) := by
      rw [Bool.and_true, Bool.eq_iff_iff]
      simp only [Bool.and_eq_true, decide_eq_true_eq, mem_byteRange]
    have hfold := @ByteClass.contains_foldl_insert cls x (fun _ => true) (byteRange b d)
    simp only [↓reduceIte] at hfold
    rw [ih, Reference.matchBracketClass, if_neg hb, if_pos rfl, hrange, ← Bool.or_assoc, ← hfold]
  | case7 cls b c d rest hb hc ih =>
    rw [ih, Reference.matchBracketClass, if_neg hb, if_neg hc, ByteClass.contains_insert,
      Bool.or_assoc]

namespace Reference

/-- Whether a body leaves a `%` right before the closing bracket. -/
def leavesEscape : List UInt8 → Bool
  | [] => false
  | [b] => b == lEsc
  | [b, d] => b != lEsc && leavesEscape [d]
  | b :: d :: e :: rest =>
    if b = lEsc then leavesEscape (e :: rest)
    else if d = ascii '-' then leavesEscape rest
    else leavesEscape (d :: e :: rest)

/-- A body that leaves no `%` is read the same way whatever such a `%` matches. -/
theorem matchBracketClass_congr (lone lone' : UInt8 → Bool) (c : UInt8) {body : List UInt8}
    (h : leavesEscape body = false) :
    matchBracketClass lone c body = matchBracketClass lone' c body := by
  fun_induction leavesEscape body with
  | case1 => rfl
  | case2 b =>
    rw [matchBracketClass, matchBracketClass, if_neg (by simpa using h), if_neg (by simpa using h)]
  | case3 b d ih =>
    have htest : ∀ lone, matchBracketClass lone c [b, d] =
        if b = lEsc then tableMatchClass c d else b == c || matchBracketClass lone c [d] := fun _ => rfl
    rw [htest, htest]
    split
    · rfl
    · rename_i hb
      rw [ih (by simpa [hb] using h)]
  | case4 d e rest ih =>
    rw [matchBracketClass, matchBracketClass, if_pos rfl, if_pos rfl, ih h]
  | case5 b e rest hb ih =>
    rw [matchBracketClass, matchBracketClass, if_neg hb, if_neg hb, if_pos rfl, if_pos rfl, ih h]
  | case6 b d e rest hb hd ih =>
    rw [matchBracketClass, matchBracketClass, if_neg hb, if_neg hb, if_neg hd, if_neg hd, ih h]

/-- Whether the class read after an opening bracket leaves a `%` right before its end. -/
def escapeLeft (text : List UInt8) : Bool :=
  match classEnd (if text.head? = some (ascii '^') then text.tail else text) with
  | .ok (body, _) => leavesEscape body
  | .error _ => false

theorem bracketItem_congr (lone lone' : UInt8 → Bool) {text : List UInt8}
    (h : escapeLeft text = false) : bracketItem lone text = bracketItem lone' text := by
  unfold escapeLeft at h
  unfold bracketItem
  simp only
  cases hend : classEnd (if text.head? = some (ascii '^') then text.tail else text) with
  | error e => rfl
  | ok r =>
    obtain ⟨body, rest⟩ := r
    rw [hend] at h
    have hsame : matchBracketClass lone = fun c body => matchBracketClass lone c body := rfl
    simp only [matchBracketClass_congr lone lone' _ h]

end Reference

/-- A bracketed class is read as the reference reads it, with a `%` that stands alone taken for
    itself. -/
theorem bracketItem_eq (text : List UInt8) :
    Reference.bracketItem Reference.literalLone text =
      (bracketClass text).map fun r => (r.1.contains, r.2) := by
  unfold Reference.bracketItem bracketClass
  simp only [bracketBody_eq, List.nil_append]
  cases Reference.classEnd (if text.head? = some (ascii '^') then text.tail else text) with
  | error e => rfl
  | ok r =>
    obtain ⟨body, rest⟩ := r
    have htest : ∀ x, (if text.head? = some (ascii '^') then (bracketMembers .empty body).invert
        else bracketMembers .empty body).contains x =
        (Reference.matchBracketClass Reference.literalLone x body ^^
          decide (text.head? = some (ascii '^'))) := by
      intro x
      split
      · rename_i hinv
        simp [contains_bracketMembers, hinv]
      · rename_i hinv
        simp [contains_bracketMembers, hinv]
    simp only [Except.map, Except.ok.injEq, Prod.mk.injEq, and_true]
    funext x
    exact (htest x).symm

/-- What a compiled class has, the reference accepts. -/
theorem bracketItem_of_bracketClass {text rest : List UInt8} {cls : ByteClass}
    (h : bracketClass text = .ok (cls, rest)) :
    Reference.bracketItem Reference.literalLone text = .ok (cls.contains, rest) := by
  rw [bracketItem_eq, h]
  rfl

end Dellingr.Patterns
