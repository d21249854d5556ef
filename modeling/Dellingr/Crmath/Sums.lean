import Dellingr.Crmath.Qint
import Dellingr.Lib.WideSum

/-!
# Sums of several words

The sums of the floats of two and four words that repeat a difference with the bits shifted out that cancel. On the
significands they are those of `WideFloat`: of magnitudes `WideFloat.addSig`, a difference `WideFloat.subSig`; what is
to show is that the shifts of words and halves of words are shifts of the whole significand, and that none of them is
out of range.

* A word shifted by its width or more is zero, as the source has it in branches of their own (`shiftedWord_eq`,
  `shiftedHalves_eq`).
* `V2.addDint` repeats a difference with the significand already shifted unless the exponents are one apart; that loses
  less than two units (`WideFloat.Larger.isSum_first`).
* A difference of halves is that of the whole significands, also where bits have left them to the left
  (`subHalves_eq`).

`multiword_sums` puts the sums together.
-/

namespace Dellingr.Crmath

open Word WideFloat

/-! ## Comparisons -/

/-- What a comparison by exponents and then by significands says. -/
inductive Compared (ex ex' : Int) (r r' : Nat) : Ordering → Prop where
  | eq : ex = ex' → r = r' → Compared ex ex' r r' .eq
  | lt : ex < ex' ∨ ex = ex' ∧ r < r' → Compared ex ex' r r' .lt
  | gt : ex' < ex ∨ ex = ex' ∧ r' < r → Compared ex ex' r r' .gt

theorem compared (ex ex' : Int) (r r' : Nat) :
    Compared ex ex' r r' ((compare ex ex').then (compare r r')) := by
  rcases lt_trichotomy ex ex' with h | rfl | h
  · rw [compare_lt_iff_lt.2 h]
    exact .lt (Or.inl h)
  · rw [compare_eq_iff_eq.2 rfl, Ordering.eq_then]
    rcases lt_trichotomy r r' with h | rfl | h
    · rw [compare_lt_iff_lt.2 h]
      exact .lt (Or.inr ⟨rfl, h⟩)
    · rw [compare_eq_iff_eq.2 rfl]
      exact .eq rfl rfl
    · rw [compare_gt_iff_gt.2 h]
      exact .gt (Or.inr ⟨rfl, h⟩)
  · rw [compare_gt_iff_gt.2 h]
    exact .gt (Or.inl h)

/-- A comparison of halves. -/
theorem compare_halves {h h' l l' : Nat} (hl : l < 2 ^ 128) (hl' : l' < 2 ^ 128) :
    (compare h h').then (compare l l') = compare (h * 2 ^ 128 + l) (h' * 2 ^ 128 + l') := by
  rcases lt_trichotomy h h' with hlt | rfl | hlt
  · have hjoin : h * 2 ^ 128 + l < h' * 2 ^ 128 + l' := by omega
    rw [compare_lt_iff_lt.2 hlt, compare_lt_iff_lt.2 hjoin]
    rfl
  · rw [compare_eq_iff_eq.2 (rfl : h = h), Ordering.eq_then]
    rcases lt_trichotomy l l' with hlt | rfl | hlt
    · have hjoin : h * 2 ^ 128 + l < h * 2 ^ 128 + l' := by omega
      rw [compare_lt_iff_lt.2 hlt, compare_lt_iff_lt.2 hjoin]
    · rw [compare_eq_iff_eq.2 (rfl : l = l), compare_eq_iff_eq.2 rfl]
    · have hjoin : h * 2 ^ 128 + l' < h * 2 ^ 128 + l := by omega
      rw [compare_gt_iff_gt.2 hlt, compare_gt_iff_gt.2 hjoin]
  · have hjoin : h' * 2 ^ 128 + l' < h * 2 ^ 128 + l := by omega
    rw [compare_gt_iff_gt.2 hlt, compare_gt_iff_gt.2 hjoin]
    rfl

/-! ## Two words -/

section Dint

variable {a b : Dint} {k x : Nat}

/-- A word that is shifted to the exponent of another. -/
theorem shiftedWord_eq {r : Nat} (hr : r < 2 ^ 128) :
    V2.shifted r k = some (r / 2 ^ k) := by
  rw [V2.shifted]
  rcases Nat.eq_zero_or_pos k with rfl | hk
  · rw [if_neg (lt_irrefl 0), pow_zero, Nat.div_one]
  · rw [if_pos hk]
    split
    · next hlt => exact shr_eq hlt
    · next hge =>
      have hpow : 2 ^ 128 ≤ 2 ^ k := Nat.pow_le_pow_right (by norm_num) (by omega)
      rw [Nat.div_eq_of_lt (hr.trans_le hpow)]

/-- The leading zeros of a difference, counted in its two words. -/
theorem clz_words {c : Nat} (hc : 0 < c) (hlt : c < 2 ^ 128) :
    (if c / 2 ^ 64 ≠ 0 then clz 64 (c / 2 ^ 64) else 64 + clz 64 (c % 2 ^ 64)) =
      clz 128 c := @clz_double 64 c hc hlt

/-- A number with its first word not zero has as many leading zeros as that word. -/
theorem clz_first {c : Nat} (hc : 2 ^ 64 ≤ c) (hlt : c < 2 ^ 128) :
    clz 64 (c / 2 ^ 64) = clz 128 c := by
  rw [← clz_words (by omega) hlt, if_pos (by omega)]

theorem V2.subtract_spec (h : Larger 128 a.wide b.wide k) (hne : a.sgn ≠ b.sgn) :
    ∃ c ex, V2.subtract a.r (b.r / 2 ^ k) b.r k = some (c, ex) ∧ c < 2 ^ 128 ∧
      IsSum 128 a.wide b.wide ⟨a.sgn, c, a.ex - (ex : Int)⟩ := by
  obtain ⟨hpos, hlt⟩ : 0 < a.r - b.r / 2 ^ k ∧ a.r - b.r / 2 ^ k < 2 ^ 128 := h.first
  obtain ⟨hx, hlo, hhi⟩ := clz_spec hpos hlt
  have hsub : wrappingSub 128 a.r (b.r / 2 ^ k) = a.r - b.r / 2 ^ k := wrappingSub_of_le Dint.r_lt (by omega)
  obtain ⟨x, hxdef⟩ : ∃ x, x = clz 128 (a.r - b.r / 2 ^ k) := ⟨_, rfl⟩
  have hsum := h.isSum_subSig hne (by norm_num)
  have hfirst (hk : k ≠ 1) := h.isSum_first hne (by norm_num) hk hxdef
  rw [← hxdef] at hx hlo hhi
  have hrep := h.repeated (by norm_num) hx hlo hhi
  simp only [subSig, Dint.wide, ← hxdef] at hsum hfirst hrep
  rw [V2.subtract]
  simp -implicitDefEqProofs only [hsub, clz_words hpos hlt, ← hxdef]
  by_cases hx0 : x = 0
  · subst hx0
    have hshl : shl 128 (a.r - b.r / 2 ^ k) (0 : Nat) = some (a.r - b.r / 2 ^ k) := by
      rw [shl_of_lt (by norm_num) (by rwa [pow_zero, Nat.mul_one]), pow_zero, Nat.mul_one]
    simp -implicitDefEqProofs only [lt_irrefl, if_false, hshl, Option.bind_eq_bind, Option.bind_some]
    simp only [pow_zero, Nat.mul_one] at hsum hlo
    rw [clz_eq_zero (by norm_num) hlo hlt, pow_zero, Nat.mul_one] at hsum
    exact ⟨_, _, rfl, hlt, hsum⟩
  · rw [if_pos (Nat.pos_of_ne_zero hx0), shl_eq hx]
    simp -implicitDefEqProofs only [Option.bind_eq_bind, Option.bind_some]
    by_cases hk1 : k = 1
    · subst hk1
      have hexp : (x : Int) - 1 = ((x - 1 : Nat) : Int) := by omega
      have hhalf : b.r * 2 ^ x / 2 ^ 1 = b.r * 2 ^ (x - 1) := by
        have hdouble : 2 ^ x = 2 ^ 1 * 2 ^ (x - 1) := by rw [← pow_add]; congr 1; omega
        rw [hdouble, Nat.mul_left_comm, Nat.mul_div_cancel_left _ (by norm_num)]
      rw [if_pos rfl, hexp, shl_eq (by omega)]
      simp -implicitDefEqProofs only [Option.bind_some]
      have hle : b.r * 2 ^ x / 2 ^ 1 ≤ a.r * 2 ^ x := hrep.le
      rw [hhalf] at hsum hrep hle
      rw [wrappingSub_mod hle hrep.lt]
      generalize a.r * 2 ^ x - b.r * 2 ^ (x - 1) = D at hsum hrep ⊢
      have hDlo : 2 ^ 126 ≤ D := hrep.half
      obtain ⟨hy, -, hyhi⟩ := clz_spec (by omega : 0 < D) hrep.lt
      rw [clz_first (by omega) hrep.lt, shl_of_lt hy hyhi]
      exact ⟨_, _, rfl, hyhi, hsum⟩
    · have hC : a.r * 2 ^ x - b.r / 2 ^ k * 2 ^ x = (a.r - b.r / 2 ^ k) * 2 ^ x := (Nat.sub_mul _ _ _).symm
      rw [if_neg hk1, shl_eq hx]
      simp -implicitDefEqProofs only [Option.bind_some]
      rw [wrappingSub_mod (Nat.mul_le_mul_right _ (by omega)) (hC ▸ hhi), hC]
      have hsum' := hfirst hk1
      generalize (a.r - b.r / 2 ^ k) * 2 ^ x = D at hsum' hlo hhi ⊢
      have hshl : shl 128 D (0 : Nat) = some D := by
        rw [shl_of_lt (by norm_num) (by rwa [pow_zero, Nat.mul_one]), pow_zero, Nat.mul_one]
      rw [clz_first (by omega) hhi, clz_eq_zero (by norm_num) hlo hhi, hshl]
      exact ⟨_, _, rfl, hhi, hsum'⟩

/-- A sum of words that has left the word is known by being smaller than what was added. -/
theorem addSig_word {aa bb : Nat} (ha : aa < 2 ^ 128) (hb : bb < 2 ^ 128) :
    addSig 128 (aa + bb) = if wrappingAdd 128 aa bb < aa then (2 ^ 127 ||| wrappingAdd 128 aa bb / 2, 1)
      else (wrappingAdd 128 aa bb, 0) := by
  rw [addSig]
  by_cases hcarry : 2 ^ 128 ≤ aa + bb
  · rw [if_neg (by omega), if_pos ((wrappingAdd_lt_iff ha hb).2 hcarry), wrappingAdd_of_le ha hb hcarry,
      or_carry hcarry (by omega)]
  · rw [if_pos (by omega), if_neg (fun h => hcarry ((wrappingAdd_lt_iff ha hb).1 h)), wrappingAdd_of_lt (by omega)]

theorem addSig_lt {N s : Nat} (hs : s < 2 ^ N + 2 ^ N) : (addSig N s).1 < 2 ^ N := by
  rw [addSig]
  split
  · assumption
  · dsimp only
    omega

theorem Dint.wide_result {s : Bool} {c : Nat} {e : Int} (hc : c < 2 ^ 128) :
    (Dint.setR ⟨0, 0, e, s⟩ c).wide = ⟨s, c, e⟩ := Dint.wide_setR hc

/-- The exponents of two numbers, the first of the greater magnitude. -/
theorem exDiff_larger (ha : a.Normal) (hb : b.Normal) (ha' : a.InRange) (hb' : b.InRange)
    (h : b.ex < a.ex ∨ a.ex = b.ex ∧ b.r < a.r) : Larger 128 a.wide b.wide (exDiff a.ex b.ex) := by
  obtain ⟨-, hahi⟩ := ha'
  obtain ⟨hblo, -⟩ := hb'
  have hk := @exDiff_eq a.ex b.ex (by omega) (by omega)
  refine larger_of_lt (Dint.normal_iff.1 ha) (Dint.normal_iff.1 hb) ?_ ?_
  · show a.ex = b.ex + (exDiff a.ex b.ex : Int)
    omega
  · rcases h with h | ⟨-, h⟩
    · exact Or.inl (by omega)
    · exact Or.inr h

theorem V2.addLarger_spec (h : Larger 128 a.wide b.wide (exDiff a.ex b.ex)) :
    ∃ r, V2.addLarger a b = some r ∧ IsSum 128 a.wide b.wide r.wide := by
  rw [V2.addLarger]
  generalize exDiff a.ex b.ex = k at h
  simp -implicitDefEqProofs only [shiftedWord_eq Dint.r_lt, Option.bind_eq_bind, Option.bind_some]
  by_cases hne : a.sgn = b.sgn
  · have hb : b.r / 2 ^ k < 2 ^ 128 := (Nat.div_le_self _ _).trans_lt Dint.r_lt
    have hsum := h.isSum_addSig hne (by norm_num)
    have hlt : (addSig 128 (a.r + b.r / 2 ^ k)).1 < 2 ^ 128 := addSig_lt (Nat.add_lt_add Dint.r_lt hb)
    simp only [Dint.wide] at hsum
    rw [addSig_word Dint.r_lt hb] at hsum hlt
    rw [hne, Bool.xor_self, if_neg Bool.false_ne_true]
    split at hlt
    · next hcarry =>
      rw [if_pos hcarry] at hsum ⊢
      exact ⟨_, rfl, by rw [Dint.wide_result hlt, ← hne]; exact hsum⟩
    · next hcarry =>
      rw [if_neg hcarry] at hsum ⊢
      refine ⟨_, rfl, ?_⟩
      rw [Dint.wide_result hlt, ← hne]
      simp only [Nat.cast_zero, add_zero] at hsum
      exact hsum
  · obtain ⟨c, ex, hsub, hc, hsum⟩ := V2.subtract_spec h hne
    rw [if_pos (Bool.xor_iff_ne.2 hne), hsub]
    simp -implicitDefEqProofs only [Option.bind_some]
    exact ⟨_, rfl, by rw [Dint.wide_result hc]; exact hsum⟩

/-- The sum with zero, whatever its exponent. -/
theorem V2.addLarger_zero (ha : a.Normal) (hb : b.r = 0) : ∃ r, V2.addLarger a b = some r ∧ r.wide = a.wide := by
  have hlt := @Dint.r_lt a
  obtain ⟨hlo, -⟩ := Dint.normal_iff.1 ha
  have hadd : wrappingAdd 128 a.r 0 = a.r := by rw [wrappingAdd_of_lt (by omega), Nat.add_zero]
  have hsub : wrappingSub 128 a.r 0 = a.r := wrappingSub_of_le hlt (Nat.zero_le _)
  have hpos : 0 < a.r := (Nat.two_pow_pos _).trans_le hlo
  have hlz : clz 128 a.r = 0 := clz_eq_zero (by norm_num) hlo hlt
  have hshl : shl 128 a.r (0 : Nat) = some a.r := by
    rw [shl_of_lt (by norm_num) (by rwa [pow_zero, Nat.mul_one]), pow_zero, Nat.mul_one]
  rw [V2.addLarger]
  generalize exDiff a.ex b.ex = k
  have hshifted : V2.shifted b.r k = some 0 := by rw [shiftedWord_eq Dint.r_lt, hb, Nat.zero_div]
  simp -implicitDefEqProofs only [hshifted, Option.bind_eq_bind, Option.bind_some]
  split
  · have hsubtract : V2.subtract a.r 0 b.r k = some (a.r, 0) := by
      rw [V2.subtract]
      simp -implicitDefEqProofs only [hsub, clz_words hpos hlt, hlz,
        lt_irrefl, if_false, hshl, Option.bind_eq_bind, Option.bind_some]
    simp -implicitDefEqProofs only [hsubtract, Option.bind_some]
    exact ⟨_, rfl, by rw [Dint.wide_result hlt, Nat.cast_zero, sub_zero]; rfl⟩
  · rw [hadd, if_neg (lt_irrefl _)]
    exact ⟨_, rfl, by rw [Dint.wide_result hlt]; rfl⟩

theorem Dint.IsZero.r_eq (ha : a.IsZero) : a.r = 0 := by
  rw [Dint.r, ha.1, ha.2]
  rfl

theorem Dint.hi_ne_zero (ha : a.Normal) : a.hi ≠ 0 := fun h => by
  rw [Dint.Normal, h] at ha
  exact absurd ha (by norm_num)

/-- The magnitudes of normalised numbers, compared. -/
theorem V2.cmpDintAbs_normal (ha : a.Normal) (hb : b.Normal) :
    V2.cmpDintAbs a b = (compare a.ex b.ex).then (compare a.r b.r) := by
  have ha' : V2.dintZeroP a = false := beq_eq_false_iff_ne.2 (Dint.hi_ne_zero ha)
  have hb' : V2.dintZeroP b = false := beq_eq_false_iff_ne.2 (Dint.hi_ne_zero hb)
  rw [V2.cmpDintAbs, ha', hb']
  rfl

theorem Dint.or_ne_zero (ha : a.Normal) : a.hi ||| a.lo ≠ 0 := fun h => Dint.hi_ne_zero ha (UInt64.or_eq_zero_iff.1 h).1

/-- **The sum of two numbers of two words**, normalised or zero. -/
theorem V2.addDint_spec (ha : a.Normal ∨ a.IsZero) (hb : b.Normal ∨ b.IsZero) (ha' : a.InRange) (hb' : b.InRange) :
    ∃ r, V2.addDint a b = some r ∧ IsSum 128 a.wide b.wide r.wide := by
  rw [V2.addDint]
  rcases ha with ha | ha
  · rw [if_neg (Dint.or_ne_zero ha)]
    rcases hb with hb | hb
    · have hcmp := compared a.ex b.ex a.r b.r
      rw [V2.cmpDintAbs_normal ha hb]
      generalize (compare a.ex b.ex).then (compare a.r b.r) = o at hcmp ⊢
      cases hcmp with
      | eq hex hr =>
        dsimp only
        by_cases hs : a.sgn = b.sgn
        · rw [if_neg fun h => Bool.xor_iff_ne.1 h hs]
          exact ⟨_, rfl, isSum_double (a := a.wide) (b := b.wide) (Dint.normal_iff.1 ha) hs hr hex⟩
        · rw [if_pos (Bool.xor_iff_ne.2 hs)]
          exact ⟨_, rfl, isSum_cancel (a := a.wide) (b := b.wide) rfl hs hr hex⟩
      | lt h =>
        obtain ⟨r, hr, hsum⟩ := V2.addLarger_spec (exDiff_larger hb ha hb' ha' (h.imp id fun h => ⟨h.1.symm, h.2⟩))
        exact ⟨r, hr, hsum.symm⟩
      | gt h => exact V2.addLarger_spec (exDiff_larger ha hb ha' hb' h)
    · have hcmp : V2.cmpDintAbs a b = .gt := by
        have ha0 : V2.dintZeroP a = false := beq_eq_false_iff_ne.2 (Dint.hi_ne_zero ha)
        have hb0 : V2.dintZeroP b = true := beq_iff_eq.2 hb.1
        rw [V2.cmpDintAbs, ha0, hb0]
        rfl
      obtain ⟨r, hr, hwide⟩ := V2.addLarger_zero ha hb.r_eq
      rw [hcmp]
      exact ⟨r, hr, hwide ▸ (isSum_zero hb.r_eq (Or.inl (Dint.normal_iff.1 ha))).symm⟩
  · rw [if_pos (by rw [ha.1, ha.2]; rfl)]
    exact ⟨b, rfl, isSum_zero ha.r_eq (hb.imp Dint.normal_iff.1 Dint.IsZero.r_eq)⟩

end Dint

/-! ## Halves -/

section Halves

variable {h l k : Nat}

/-- The two halves of a significand of four words. -/
def halves (r : Nat) : Nat × Nat := (r / 2 ^ 128, r % 2 ^ 128)

theorem halves_join (hl : l < 2 ^ 128) : halves (h * 2 ^ 128 + l) = (h, l) := by
  rw [halves]
  refine Prod.ext ?_ ?_
  · dsimp only
    omega
  · dsimp only
    omega

theorem halves_of_join {V : Nat} (hl : l < 2 ^ 128) (hV : h * 2 ^ 128 + l = V) : (h, l) = halves V :=
  hV ▸ (halves_join hl).symm

theorem Qint.halves_fst (a : Qint) : (halves a.r).1 = a.rh := congrArg Prod.fst (halves_join (h := a.rh) Qint.rl_lt)

theorem Qint.halves_snd (a : Qint) : (halves a.r).2 = a.rl := congrArg Prod.snd (halves_join (h := a.rh) Qint.rl_lt)

theorem join_halves (r : Nat) : (halves r).1 * 2 ^ 128 + (halves r).2 = r := Nat.div_add_mod' r _

theorem halves_lt {r : Nat} (hr : r < 2 ^ 256) : (halves r).1 < 2 ^ 128 ∧ (halves r).2 < 2 ^ 128 := by
  refine ⟨(Nat.div_lt_iff_lt_mul (Nat.two_pow_pos _)).2 ?_, Nat.mod_lt _ (Nat.two_pow_pos _)⟩
  rw [← pow_add]
  exact hr

theorem join_lt (hh : h < 2 ^ 128) (hl : l < 2 ^ 128) : h * 2 ^ 128 + l < 2 ^ 256 := by
  calc h * 2 ^ 128 + l < (h + 1) * 2 ^ 128 := by rw [Nat.add_mul, Nat.one_mul]; exact Nat.add_lt_add_left hl _
    _ ≤ 2 ^ 128 * 2 ^ 128 := Nat.mul_le_mul_right _ hh
    _ = 2 ^ 256 := (pow_add 2 128 128).symm

/-- A shift of two halves to the left. -/
theorem shiftLeft_eq (hl : l < 2 ^ 128) (h0 : 0 < k) (hk : k < 256) :
    shiftLeft h l k = some (halves ((h * 2 ^ 128 + l) * 2 ^ k % 2 ^ 256)) := by
  have hpow : 2 ^ 256 = 2 ^ 128 * 2 ^ 128 := pow_add 2 128 128
  rw [shiftLeft]
  by_cases hbig : 128 ≤ k
  · have hexp : (k : Int) - 128 = ((k - 128 : Nat) : Int) := by omega
    have hsplit : (h * 2 ^ 128 + l) * 2 ^ k = 2 ^ 128 * (h * 2 ^ 128 * 2 ^ (k - 128) + l * 2 ^ (k - 128)) := by
      have h2k : 2 ^ k = 2 ^ 128 * 2 ^ (k - 128) := by rw [← pow_add, Nat.add_sub_cancel' hbig]
      rw [h2k]
      ring
    rw [if_pos (by exact_mod_cast hbig), hexp, shl_eq (by omega), hsplit, hpow, Nat.mul_mod_mul_left]
    have hmod : (h * 2 ^ 128 * 2 ^ (k - 128) + l * 2 ^ (k - 128)) % 2 ^ 128 = l * 2 ^ (k - 128) % 2 ^ 128 := by
      rw [Nat.mul_right_comm, Nat.mul_add_mod_self_right]
    rw [hmod, ← @halves_of_join (l * 2 ^ (k - 128) % 2 ^ 128) 0 _ (Nat.two_pow_pos _)
      (by rw [Nat.add_zero, Nat.mul_comm])]
    rfl
  · have hexp : (128 : Int) - k = ((128 - k : Nat) : Int) := by omega
    rw [if_neg (by exact_mod_cast hbig), hexp, shl_eq (by omega), shl_eq (by omega), shr_eq (by omega)]
    have hvalue := @shl_double 128 h l k hl (by omega)
    rw [← pow_add] at hvalue
    rw [← halves_of_join (Nat.mod_lt _ (Nat.two_pow_pos _)) hvalue]
    rfl

/-- A shift of two halves to the right. -/
theorem shiftRight_eq (hh : h < 2 ^ 128) (hl : l < 2 ^ 128) (h0 : 0 < k) (hk : k < 256) :
    shiftRight h l k = some (halves ((h * 2 ^ 128 + l) / 2 ^ k)) := by
  rw [shiftRight]
  by_cases hbig : 128 ≤ k
  · have hexp : (k : Int) - 128 = ((k - 128 : Nat) : Int) := by omega
    have h2k : 2 ^ k = 2 ^ 128 * 2 ^ (k - 128) := by rw [← pow_add, Nat.add_sub_cancel' hbig]
    have hdiv : (h * 2 ^ 128 + l) / 2 ^ 128 = h := by omega
    rw [if_pos (by exact_mod_cast hbig), hexp, shr_eq (by omega), h2k, ← Nat.div_div_eq_div_mul, hdiv]
    have hlt : h / 2 ^ (k - 128) < 2 ^ 128 := (Nat.div_le_self _ _).trans_lt hh
    rw [← @halves_of_join 0 (h / 2 ^ (k - 128)) _ hlt (by rw [Nat.zero_mul, Nat.zero_add])]
    rfl
  · have hexp : (128 : Int) - k = ((128 - k : Nat) : Int) := by omega
    rw [if_neg (by exact_mod_cast hbig), hexp, shr_eq (by omega), shl_eq (by omega), shr_eq (by omega)]
    have hvalue := @shr_double 128 h l k hl (by omega)
    have hor : l / 2 ^ k ||| h * 2 ^ (128 - k) % 2 ^ 128 < 2 ^ 128 :=
      Nat.or_lt_two_pow ((Nat.div_le_self _ _).trans_lt hl) (Nat.mod_lt _ (Nat.two_pow_pos _))
    rw [← halves_of_join hor hvalue]
    rfl

/-- The borrow of the lower halves. -/
theorem subu128_eq {a b : Nat} (ha : a < 2 ^ 128) (hb : b < 2 ^ 128) :
    subu128 a b = if b ≤ a then (a - b, false) else (a + (2 ^ 128 - b), true) := by
  rw [subu128]
  split
  · next hle =>
    rw [wrappingSub_of_le ha hle, decide_eq_false (by omega)]
  · next hlt =>
    rw [wrappingSub_of_lt hb (by omega), decide_eq_true (by omega)]

/-- A difference of halves is that of the significands. -/
theorem subHalves_wrapping {ah al bh bl : Nat} (hah : ah < 2 ^ 128) (hal : al < 2 ^ 128) (hbh : bh < 2 ^ 128)
    (hbl : bl < 2 ^ 128) :
    subHalves ah al bh bl = halves (wrappingSub 256 (ah * 2 ^ 128 + al) (bh * 2 ^ 128 + bl)) := by
  have hpow : 2 ^ 256 = 2 ^ 128 * 2 ^ 128 := pow_add 2 128 128
  have hX := join_lt hah hal
  have hY := join_lt hbh hbl
  have hlt_iff : ah * 2 ^ 128 + al < bh * 2 ^ 128 + bl ↔ ah < bh ∨ ah = bh ∧ al < bl := by
    clear hX hY hpow
    omega
  rw [subHalves, subu128_eq hal hbl]
  by_cases hle : bl ≤ al
  · rw [if_pos hle]
    simp -implicitDefEqProofs only [Bool.false_eq_true, if_false]
    rcases Nat.lt_or_ge ah bh with hlt | hge
    · rw [wrappingSub_of_lt hbh hlt, wrappingSub_of_lt hY (hlt_iff.2 (Or.inl hlt))]
      exact halves_of_join (by omega) (by rw [hpow]; omega)
    · rw [wrappingSub_of_le hah hge, wrappingSub_of_le hX (Nat.le_of_not_lt fun h => by have := hlt_iff.1 h; omega)]
      exact halves_of_join (by omega) (by clear hX hY hpow hlt_iff; omega)
  · rw [if_neg hle]
    simp -implicitDefEqProofs only [if_true]
    rcases lt_trichotomy ah bh with hlt | rfl | hgt
    · rw [wrappingSub_of_lt hbh hlt, wrappingSub_of_le (by omega) (by omega),
        wrappingSub_of_lt hY (hlt_iff.2 (Or.inl hlt))]
      exact halves_of_join (by omega) (by rw [hpow]; omega)
    · rw [wrappingSub_of_le hah le_rfl, wrappingSub_of_lt (by norm_num) (by omega),
        wrappingSub_of_lt hY (hlt_iff.2 (Or.inr ⟨rfl, by omega⟩))]
      exact halves_of_join (by omega) (by rw [hpow]; omega)
    · rw [wrappingSub_of_le hah hgt.le, wrappingSub_of_le (by omega) (by omega),
        wrappingSub_of_le hX (Nat.le_of_not_lt fun h => by have := hlt_iff.1 h; omega)]
      exact halves_of_join (by omega) (by clear hX hY hpow hlt_iff; omega)

/-- A difference of the halves of significands that have lost bits to the left. -/
theorem subHalves_eq {X Y : Nat} (hle : Y ≤ X) (hlt : X - Y < 2 ^ 256) :
    subHalves (halves (X % 2 ^ 256)).1 (halves (X % 2 ^ 256)).2 (halves (Y % 2 ^ 256)).1 (halves (Y % 2 ^ 256)).2 =
      halves (X - Y) := by
  obtain ⟨hXh, hXl⟩ := halves_lt (Nat.mod_lt X (Nat.two_pow_pos 256))
  obtain ⟨hYh, hYl⟩ := halves_lt (Nat.mod_lt Y (Nat.two_pow_pos 256))
  rw [subHalves_wrapping hXh hXl hYh hYl, join_halves, join_halves, wrappingSub_mod hle hlt]

/-- The leading zeros of four words. -/
theorem clz256_eq {c : Nat} (hc : 0 < c) (hlt : c < 2 ^ 256) :
    clz256 (halves c).1 (halves c).2 = clz 256 c := by
  obtain ⟨hh, hl⟩ := halves_lt hlt
  have hdouble := @clz_double 128 c hc hlt
  have hjoin := join_halves c
  rw [← show (halves c).1 = c / 2 ^ 128 from rfl, ← show (halves c).2 = c % 2 ^ 128 from rfl] at hdouble
  generalize (halves c).1 = ch at *
  generalize (halves c).2 = cl at *
  rw [clz256, show clz 256 c = clz (128 + 128) c from rfl, ← hdouble]
  by_cases hzero : ch = 0
  · have hcl : 0 < cl := by omega
    have hwords := clz_words hcl hl
    rw [if_neg (not_not.2 hzero), ← hwords, hzero]
    simp only [Nat.zero_div, ne_eq, not_true_eq_false, if_false]
    split <;> omega
  · rw [if_pos hzero, ← clz_words (Nat.pos_of_ne_zero hzero) hh, if_pos hzero]

/-- A significand that is shifted to the exponent of another. -/
theorem shiftedHalves_eq {r : Nat} (hr : r < 2 ^ 256) :
    shiftedHalves (halves r).1 (halves r).2 k = some (halves (r / 2 ^ k)) := by
  obtain ⟨hh, hl⟩ := halves_lt hr
  have hjoin := join_halves r
  rw [shiftedHalves]
  rcases Nat.eq_zero_or_pos k with rfl | hk
  · rw [if_neg (by norm_num), pow_zero, Nat.div_one]
  rw [if_pos (by exact_mod_cast hk)]
  by_cases hbig : 128 ≤ k
  · rw [if_pos (by exact_mod_cast hbig)]
    by_cases hlt : k < 256
    · have hright := shiftRight_eq hh hl hk hlt
      rw [hjoin, shiftRight, if_pos (by exact_mod_cast hbig)] at hright
      rw [if_pos (by exact_mod_cast hlt), ← hright]
      rcases shr 128 (halves r).1 ((k : Int) - 128) with _ | l <;> rfl
    · have hpow : 2 ^ 256 ≤ 2 ^ k := Nat.pow_le_pow_right (by norm_num) (by omega)
      rw [if_neg (by exact_mod_cast hlt), Nat.div_eq_of_lt (hr.trans_le hpow)]
      rfl
  · rcases lt_or_ge k 256 with hlt | hge
    · rw [if_neg (by exact_mod_cast hbig), shiftRight_eq hh hl hk hlt, hjoin]
    · omega

/-- A significand that is shifted by the leading zeros of a difference, and to the exponent of another. -/
theorem realigned_eq {r x : Nat} (hr : r < 2 ^ 256) (hx : x < 256) (hk : k < 256) :
    realigned (halves r).1 (halves r).2 ((x : Int) - k) = some (halves (r * 2 ^ x / 2 ^ k % 2 ^ 256)) := by
  obtain ⟨hh, hl⟩ := halves_lt hr
  have hjoin := join_halves r
  rw [realigned]
  rcases lt_trichotomy x k with hlt | rfl | hgt
  · have hexp : -((x : Int) - k) = ((k - x : Nat) : Int) := by omega
    have hpow : 2 ^ k = 2 ^ x * 2 ^ (k - x) := by rw [← pow_add, Nat.add_sub_cancel' hlt.le]
    have hdiv : r * 2 ^ x / 2 ^ k = r / 2 ^ (k - x) := by
      rw [hpow, ← Nat.div_div_eq_div_mul, Nat.mul_div_cancel _ (Nat.two_pow_pos x)]
    rw [if_neg (by omega), if_neg (by omega), hexp, shiftRight_eq hh hl (by omega) (by omega), hjoin, hdiv,
      Nat.mod_eq_of_lt ((Nat.div_le_self _ _).trans_lt hr)]
  · rw [if_neg (by omega), if_pos (by omega), Nat.mul_div_cancel _ (Nat.two_pow_pos x), Nat.mod_eq_of_lt hr]
  · have hexp : (x : Int) - k = ((x - k : Nat) : Int) := by omega
    have hpow : 2 ^ x = 2 ^ (x - k) * 2 ^ k := by rw [← pow_add, Nat.sub_add_cancel hgt.le]
    rw [hexp, if_pos (by omega), shiftLeft_eq hl (by omega) (by omega), hjoin, hpow, ← Nat.mul_assoc,
      Nat.mul_div_cancel _ (Nat.two_pow_pos k)]

/-- What is left of a cancellation, shifted out. -/
theorem finishShift_eq {D y : Nat} (hD : D * 2 ^ y < 2 ^ 256) (hy : y < 128) :
    finishShift (halves D).1 (halves D).2 y = some (halves (D * 2 ^ y)) := by
  have hlt : D < 2 ^ 256 := (Nat.le_mul_of_pos_right _ (Nat.two_pow_pos y)).trans_lt hD
  obtain ⟨hh, hl⟩ := halves_lt hlt
  rw [finishShift]
  by_cases hy0 : y = 0
  · rw [if_neg (not_not.2 hy0), hy0, pow_zero, Nat.mul_one]
  · have hleft := shiftLeft_eq (h := (halves D).1) hl (Nat.pos_of_ne_zero hy0) (by omega : y < 256)
    rw [shiftLeft, if_neg (by omega), join_halves, Nat.mod_eq_of_lt hD] at hleft
    rw [if_pos hy0, ← hleft]

/-- The carry of the upper halves, with that of the lower ones. -/
theorem addCarry_eq {ch cy c : Nat} (hch : ch < 2 ^ 128) (hsum : cy * 2 ^ 128 + ch + c < 2 * 2 ^ 128) (hc : c ≤ 1) :
    ∃ ch' cy', (if c ≠ 0 then (wrappingAdd 128 ch 1, cy + if wrappingAdd 128 ch 1 = 0 then 1 else 0) else (ch, cy)) =
      (ch', cy') ∧ ch' < 2 ^ 128 ∧ cy' * 2 ^ 128 + ch' = cy * 2 ^ 128 + ch + c := by
  obtain rfl | rfl : c = 0 ∨ c = 1 := by omega
  · exact ⟨ch, cy, if_neg (not_not.2 rfl), hch, (Nat.add_zero _).symm⟩
  · refine ⟨wrappingAdd 128 ch 1, cy + if wrappingAdd 128 ch 1 = 0 then 1 else 0, if_pos one_ne_zero, wrappingAdd_lt, ?_⟩
    rcases Nat.lt_or_ge (ch + 1) (2 ^ 128) with hlt | hge
    · rw [wrappingAdd_of_lt hlt, if_neg (by omega)]
      omega
    · rw [wrappingAdd_of_le hch (by norm_num) hge, if_pos (by omega)]
      omega

/-- A significand with its carry, shifted by one. -/
theorem halves_carry {ch cl : Nat} (hch : ch < 2 ^ 128) (hcl : cl < 2 ^ 128) :
    (2 ^ 127 ||| ch / 2, ch * 2 ^ 127 % 2 ^ 128 ||| cl / 2) = halves (((2 ^ 128 + ch) * 2 ^ 128 + cl) / 2) := by
  have hhigh := @or_carry 127 (2 ^ 128 + ch) (by omega) (by omega)
  have hvalue := @shr_double 128 (2 ^ 128 + ch) cl 1 hcl (by norm_num)
  have hlow : (2 ^ 128 + ch) * 2 ^ 127 % 2 ^ 128 = ch * 2 ^ 127 % 2 ^ 128 := by
    rw [Nat.add_mul, Nat.mul_comm (2 ^ 128), Nat.mul_add_mod_self_right]
  have hor : ch * 2 ^ 127 % 2 ^ 128 ||| cl / 2 < 2 ^ 128 :=
    Nat.or_lt_two_pow (Nat.mod_lt _ (Nat.two_pow_pos _)) ((Nat.div_le_self _ _).trans_lt hcl)
  rw [show 2 ^ 128 + ch - 2 ^ (127 + 1) = ch by omega] at hhigh
  rw [pow_one, show 128 - 1 = 127 from rfl, hlow, Nat.or_comm, ← hhigh] at hvalue
  exact halves_of_join hor hvalue

/-- The sum of two significands of two halves. -/
theorem addHalves_eq {X Y : Nat} (hX : X < 2 ^ 256) (hY : Y < 2 ^ 256) :
    addHalves (halves X).1 (halves X).2 (halves Y).1 (halves Y).2 =
      ((halves (addSig 256 (X + Y)).1).1, (halves (addSig 256 (X + Y)).1).2, (addSig 256 (X + Y)).2) := by
  have hpow : 2 ^ 256 = 2 ^ 128 * 2 ^ 128 := pow_add 2 128 128
  obtain ⟨hXh, hXl⟩ := halves_lt hX
  obtain ⟨hYh, hYl⟩ := halves_lt hY
  have hXj := join_halves X
  have hYj := join_halves Y
  generalize (halves X).1 = ah at *
  generalize (halves X).2 = al at *
  generalize (halves Y).1 = bh at *
  generalize (halves Y).2 = bl at *
  obtain ⟨hlt, hsum⟩ := addu128_eq hXh hYh
  obtain ⟨hlt', hsum'⟩ := addu128_eq hXl hYl
  obtain ⟨⟨ch, cy⟩, hc⟩ : ∃ x, addu128 ah bh = x := ⟨_, rfl⟩
  obtain ⟨⟨cl, c⟩, hc'⟩ : ∃ x, addu128 al bl = x := ⟨_, rfl⟩
  rw [hc] at hlt hsum
  rw [hc'] at hlt' hsum'
  rw [addHalves, hc, hc']
  dsimp only at hlt hsum hlt' hsum' ⊢
  obtain ⟨ch', cy', hcarry, hch', hsum''⟩ := @addCarry_eq ch cy c hlt (by clear * - hsum hXh hYh hsum' hXl hYl hlt'; omega)
    (by clear * - hsum' hXl hYl; omega)
  have hS : X + Y = cy' * 2 ^ 256 + (ch' * 2 ^ 128 + cl) := by
    have hhigh : ah + bh + c = cy' * 2 ^ 128 + ch' := by
      clear * - hsum hsum''
      omega
    calc X + Y = (ah + bh) * 2 ^ 128 + (al + bl) := by rw [← hXj, ← hYj]; ring
      _ = (ah + bh + c) * 2 ^ 128 + cl := by rw [← hsum']; ring
      _ = cy' * 2 ^ 256 + (ch' * 2 ^ 128 + cl) := by rw [hhigh, hpow]; ring
  have hjoin := join_lt hch' hlt'
  rw [hcarry, hS, addSig]
  dsimp only
  obtain rfl | rfl : cy' = 0 ∨ cy' = 1 := by
    clear * - hsum hXh hYh hsum' hXl hYl hlt' hsum''
    omega
  · rw [if_neg (not_not.2 rfl), Nat.zero_mul, Nat.zero_add, if_pos hjoin, halves_join hlt']
  · have hcarried : 1 * 2 ^ 256 + (ch' * 2 ^ 128 + cl) = (2 ^ 128 + ch') * 2 ^ 128 + cl := by
      rw [hpow]
      ring
    rw [if_pos one_ne_zero, if_neg (by rw [Nat.one_mul]; exact Nat.not_lt.2 (Nat.le_add_right _ _)), hcarried,
      ← halves_carry hch' hlt']

end Halves

/-! ## Four words -/

section Qint

variable {a b : Qint} {k : Nat}

/-- A difference cancels only if the exponents are not further apart than a significand has bits. -/
theorem lt_of_cancels {N A B x : Nat} (hN : 0 < N) (hA : 2 ^ (N - 1) ≤ A) (hB : B < 2 ^ N) (hx : 0 < x)
    (hlt : (A - B / 2 ^ k) * 2 ^ x < 2 ^ N) : k < N := by
  by_contra hk
  have hpow : 2 ^ N ≤ 2 ^ k := Nat.pow_le_pow_right (by norm_num) (by omega)
  have htwo : 2 ^ 1 ≤ 2 ^ x := Nat.pow_le_pow_right (by norm_num) hx
  rw [Nat.div_eq_of_lt (hB.trans_le hpow), Nat.sub_zero] at hlt
  refine absurd hlt (not_lt.2 ?_)
  calc 2 ^ N = 2 ^ (N - 1) * 2 ^ 1 := by rw [← pow_add]; congr 1; omega
    _ ≤ A * 2 ^ x := Nat.mul_le_mul hA htwo

theorem subtractQint_spec (h : Larger 256 a.wide b.wide k) (hne : a.sgn ≠ b.sgn) :
    ∃ ch cl ex, subtractQint a b (halves (b.r / 2 ^ k)).1 (halves (b.r / 2 ^ k)).2 k = some (ch, cl, ex) ∧
      ch < 2 ^ 128 ∧ cl < 2 ^ 128 ∧ IsSum 256 a.wide b.wide ⟨a.sgn, ch * 2 ^ 128 + cl, a.ex - (ex : Int)⟩ := by
  obtain ⟨hpos, hlt⟩ : 0 < a.r - b.r / 2 ^ k ∧ a.r - b.r / 2 ^ k < 2 ^ 256 := h.first
  obtain ⟨hx, hlo, hhi⟩ := clz_spec hpos hlt
  have hle : b.r / 2 ^ k ≤ a.r := (Nat.lt_of_sub_pos hpos).le
  have hquot : b.r / 2 ^ k < 2 ^ 256 := (Nat.div_le_self _ _).trans_lt Qint.r_lt
  have hfirst : subHalves a.rh a.rl (halves (b.r / 2 ^ k)).1 (halves (b.r / 2 ^ k)).2 =
      halves (a.r - b.r / 2 ^ k) := by
    have hsub := @subHalves_eq a.r (b.r / 2 ^ k) hle hlt
    rwa [Nat.mod_eq_of_lt Qint.r_lt, Nat.mod_eq_of_lt hquot, Qint.halves_fst, Qint.halves_snd] at hsub
  have hsum := h.isSum_subSig hne (by norm_num)
  obtain ⟨x, hxdef⟩ : ∃ x, x = clz 256 (a.r - b.r / 2 ^ k) := ⟨_, rfl⟩
  rw [← hxdef] at hx hlo hhi
  have hrep := h.repeated (by norm_num) hx hlo hhi
  simp only [subSig, Qint.wide, ← hxdef] at hsum hrep
  rw [subtractQint, hfirst]
  dsimp only
  rw [clz256_eq hpos hlt, ← hxdef]
  by_cases hx0 : 0 < x
  · have hk := lt_of_cancels (by norm_num) h.left.1 Qint.r_lt hx0 hhi
    have hshift := @shiftLeft_eq a.rh a.rl x Qint.rl_lt hx0 hx
    have hrealigned := realigned_eq (@Qint.r_lt b) hx hk
    rw [Qint.halves_fst, Qint.halves_snd] at hrealigned
    rw [if_pos hx0, hshift, ← Qint.r, hrealigned]
    simp -implicitDefEqProofs only [Option.bind_eq_bind, Option.bind_some]
    rw [subHalves_eq hrep.le hrep.lt]
    generalize a.r * 2 ^ x - b.r * 2 ^ x / 2 ^ k = D at hsum hrep ⊢
    have hDlo : 2 ^ 254 ≤ D := hrep.half
    have hDpos : 0 < D := (Nat.two_pow_pos _).trans_le hDlo
    obtain ⟨-, -, hyhi⟩ := clz_spec hDpos hrep.lt
    rw [clz256_eq hDpos hrep.lt]
    have hy : clz 256 D < 128 := by
      by_contra hge
      have hfour : 2 ^ 2 ≤ 2 ^ clz 256 D := Nat.pow_le_pow_right (by norm_num) (by omega)
      refine absurd hyhi (not_lt.2 ?_)
      calc 2 ^ 256 = 2 ^ 254 * 2 ^ 2 := by norm_num
        _ ≤ D * 2 ^ clz 256 D := Nat.mul_le_mul hDlo hfour
    rw [finishShift_eq hyhi hy]
    obtain ⟨hch, hcl⟩ := halves_lt hyhi
    exact ⟨_, _, _, rfl, hch, hcl, by rw [join_halves]; exact hsum⟩
  · obtain rfl : x = 0 := by omega
    simp only [pow_zero, Nat.mul_one] at hsum hlo
    rw [clz_eq_zero (by norm_num) hlo hlt, pow_zero, Nat.mul_one] at hsum
    obtain ⟨hch, hcl⟩ := halves_lt hlt
    rw [if_neg (lt_irrefl 0)]
    exact ⟨_, _, _, rfl, hch, hcl, by rw [join_halves]; exact hsum⟩

theorem addLargerQint_spec (h : Larger 256 a.wide b.wide k) :
    ∃ r, addLargerQint a b = some r ∧ IsSum 256 a.wide b.wide r.wide := by
  have hexp : a.ex - b.ex = (k : Int) := by
    have : a.ex = b.ex + k := h.ex
    omega
  have hshifted := @shiftedHalves_eq k b.r Qint.r_lt
  rw [Qint.halves_fst, Qint.halves_snd] at hshifted
  obtain ⟨⟨bh, bl⟩, hhalves⟩ : ∃ x, halves (b.r / 2 ^ k) = x := ⟨_, rfl⟩
  rw [addLargerQint, hexp, hshifted, Option.bind_eq_bind, Option.bind_some, hhalves]
  show ∃ r, combineQint a b bh bl k = some r ∧ _
  rw [combineQint]
  by_cases hne : a.sgn = b.sgn
  · have hb : b.r / 2 ^ k < 2 ^ 256 := (Nat.div_le_self _ _).trans_lt Qint.r_lt
    have hsum := h.isSum_addSig hne (by norm_num)
    have hadd := addHalves_eq (@Qint.r_lt a) hb
    have hlt : (addSig 256 (a.r + b.r / 2 ^ k)).1 < 2 ^ 256 := addSig_lt (Nat.add_lt_add Qint.r_lt hb)
    obtain ⟨hch, hcl⟩ := halves_lt hlt
    rw [Qint.halves_fst, Qint.halves_snd, hhalves] at hadd
    dsimp only at hadd
    rw [if_neg fun hxor => Bool.xor_iff_ne.1 hxor hne, hadd]
    exact ⟨_, rfl, by rw [Qint.wide_ofHalves hch hcl, join_halves]; exact hsum⟩
  · obtain ⟨ch, cl, ex, hsub, hch, hcl, hsum⟩ := subtractQint_spec h hne
    rw [hhalves] at hsub
    dsimp only at hsub
    rw [if_pos (Bool.xor_iff_ne.2 hne), hsub]
    exact ⟨_, rfl, by rw [Qint.wide_ofHalves hch hcl]; exact hsum⟩

theorem Qint.IsZero.r_eq (ha : a.IsZero) : a.r = 0 := by
  rw [Qint.r, Qint.rh, Qint.rl, ha.1, ha.2.1, ha.2.2.1, ha.2.2.2]
  rfl

/-- Whether both halves are zero. -/
theorem Qint.halves_eq_zero : a.rh = 0 ∧ a.rl = 0 ↔ a.r = 0 := by
  rw [Qint.r]
  omega

theorem Qint.r_ne_zero (ha : a.Normal) : a.r ≠ 0 := fun h => by
  have hlo := (Qint.normal_iff.1 ha).1
  exact absurd (h ▸ hlo : 2 ^ (256 - 1) ≤ 0) (not_le.2 (Nat.two_pow_pos _))

theorem cmpQint_eq (a b : Qint) : cmpQint a b = (compare a.ex b.ex).then (compare a.r b.r) := by
  rw [cmpQint, compare_halves Qint.rl_lt Qint.rl_lt, ← Qint.r, ← Qint.r]

/-- The number of the greater magnitude, and its exponent above the other's. -/
theorem exists_larger (ha : a.Normal) (hb : b.Normal) (h : b.ex < a.ex ∨ a.ex = b.ex ∧ b.r < a.r) :
    ∃ k, Larger 256 a.wide b.wide k := by
  refine ⟨(a.ex - b.ex).toNat, larger_of_lt (Qint.normal_iff.1 ha) (Qint.normal_iff.1 hb) ?_ ?_⟩
  · show a.ex = b.ex + ((a.ex - b.ex).toNat : Int)
    omega
  · rcases h with h | ⟨-, h⟩
    · exact Or.inl (by omega)
    · exact Or.inr h

/-- **The sum of two numbers of four words**, normalised or zero: two calls are enough. -/
theorem addQint_spec (calls : Nat) (ha : a.Normal ∨ a.IsZero) (hb : b.Normal ∨ b.IsZero) :
    ∃ r, addQint (calls + 2) a b = some r ∧ IsSum 256 a.wide b.wide r.wide := by
  rw [addQint]
  simp only [Qint.halves_eq_zero]
  rcases ha with ha | ha
  · rw [if_neg (Qint.r_ne_zero ha)]
    rcases hb with hb | hb
    · have hcmp := compared a.ex b.ex a.r b.r
      rw [if_neg (Qint.r_ne_zero hb), cmpQint_eq]
      generalize ho : (compare a.ex b.ex).then (compare a.r b.r) = o at hcmp ⊢
      cases hcmp with
      | eq hex hr =>
        dsimp only
        by_cases hs : a.sgn = b.sgn
        · rw [if_neg fun h => Bool.xor_iff_ne.1 h hs]
          exact ⟨_, rfl, isSum_double (a := a.wide) (b := b.wide) (Qint.normal_iff.1 ha) hs hr hex⟩
        · rw [if_pos (Bool.xor_iff_ne.2 hs)]
          exact ⟨_, rfl, isSum_cancel (a := a.wide) (b := b.wide) rfl hs hr hex⟩
      | lt h =>
        have hswap : cmpQint b a = .gt := by
          have hcmp := compared b.ex a.ex b.r a.r
          rw [cmpQint_eq]
          generalize (compare b.ex a.ex).then (compare b.r a.r) = o at hcmp ⊢
          cases hcmp with
          | eq hex hr => omega
          | lt h' => omega
          | gt _ => rfl
        obtain ⟨k, hk⟩ := exists_larger hb ha (h.imp id fun h => ⟨h.1.symm, h.2⟩)
        obtain ⟨r, hr, hsum⟩ := addLargerQint_spec hk
        dsimp only
        rw [addQint, hswap]
        simp only [Qint.halves_eq_zero]
        rw [if_neg (Qint.r_ne_zero hb), if_neg (Qint.r_ne_zero ha)]
        exact ⟨r, hr, hsum.symm⟩
      | gt h =>
        obtain ⟨k, hk⟩ := exists_larger ha hb h
        exact addLargerQint_spec hk
    · rw [if_pos hb.r_eq]
      exact ⟨a, rfl, (isSum_zero hb.r_eq (Or.inl (Qint.normal_iff.1 ha))).symm⟩
  · rw [if_pos ha.r_eq]
    exact ⟨b, rfl, isSum_zero ha.r_eq (hb.imp Qint.normal_iff.1 Qint.IsZero.r_eq)⟩

/-! ## The upper two of four words -/

/-- An upper half that is shifted to the exponent of another. -/
theorem shifted22_eq {r : Nat} (hr : r < 2 ^ 128) : shifted22 r k = some (r / 2 ^ k) := by
  have hword := @shiftedWord_eq k r hr
  rw [V2.shifted] at hword
  rw [shifted22, ← hword]
  rcases Nat.lt_or_ge k 128 with hlt | hge
  · rw [if_neg (by omega : ¬128 ≤ k), if_pos hlt]
  · have hpos : 0 < k := by omega
    rw [if_pos hpos, if_pos hpos, if_pos (by omega : 128 ≤ k), if_neg (by omega : ¬k < 128)]

/-- An upper half that is shifted by the leading zeros of a difference, and to the exponent of another. -/
theorem realigned22_eq {r x : Nat} (hr : r < 2 ^ 128) (hx : x < 128) (hk : k < 128) :
    realigned22 r x k = some (r * 2 ^ x / 2 ^ k % 2 ^ 128) := by
  rw [realigned22]
  rcases Nat.lt_or_ge x k with hlt | hge
  · have hexp : (k : Int) - x = ((k - x : Nat) : Int) := by omega
    have hpow : 2 ^ k = 2 ^ x * 2 ^ (k - x) := by rw [← pow_add, Nat.add_sub_cancel' hlt.le]
    have hdiv : r * 2 ^ x / 2 ^ k = r / 2 ^ (k - x) := by
      rw [hpow, ← Nat.div_div_eq_div_mul, Nat.mul_div_cancel _ (Nat.two_pow_pos x)]
    rw [if_neg (by omega), hexp, shr_eq (by omega), hdiv, Nat.mod_eq_of_lt ((Nat.div_le_self _ _).trans_lt hr)]
  · have hexp : (x : Int) - k = ((x - k : Nat) : Int) := by omega
    have hpow : 2 ^ x = 2 ^ (x - k) * 2 ^ k := by rw [← pow_add, Nat.sub_add_cancel hge]
    rw [if_pos hge, hexp, shl_eq (by omega), hpow, ← Nat.mul_assoc, Nat.mul_div_cancel _ (Nat.two_pow_pos k)]

theorem subtractQint22_spec (h : Larger 128 a.upperWide b.upperWide k) (hne : a.sgn ≠ b.sgn) :
    ∃ c ex, subtractQint22 a b (b.rh / 2 ^ k) k = some (c, ex) ∧ c < 2 ^ 128 ∧
      IsSum 128 a.upperWide b.upperWide ⟨a.sgn, c, a.ex - (ex : Int)⟩ := by
  obtain ⟨hpos, hlt⟩ : 0 < a.rh - b.rh / 2 ^ k ∧ a.rh - b.rh / 2 ^ k < 2 ^ 128 := h.first
  obtain ⟨hx, hlo, hhi⟩ := clz_spec hpos hlt
  have hsub : wrappingSub 128 a.rh (b.rh / 2 ^ k) = a.rh - b.rh / 2 ^ k := wrappingSub_of_le Qint.rh_lt (by omega)
  have hsum := h.isSum_subSig hne (by norm_num)
  obtain ⟨x, hxdef⟩ : ∃ x, x = clz 128 (a.rh - b.rh / 2 ^ k) := ⟨_, rfl⟩
  rw [← hxdef] at hx hlo hhi
  have hrep := h.repeated (by norm_num) hx hlo hhi
  simp only [subSig, Qint.upperWide, ← hxdef] at hsum hrep
  rw [subtractQint22]
  simp -implicitDefEqProofs only [hsub, clz_words hpos hlt, ← hxdef]
  by_cases hx0 : 0 < x
  · have hk := lt_of_cancels (by norm_num) h.left.1 Qint.rh_lt hx0 hhi
    rw [if_pos hx0, shl_eq hx, realigned22_eq Qint.rh_lt hx hk]
    simp -implicitDefEqProofs only [Option.bind_eq_bind, Option.bind_some]
    rw [wrappingSub_mod hrep.le hrep.lt]
    generalize a.rh * 2 ^ x - b.rh * 2 ^ x / 2 ^ k = D at hsum hrep ⊢
    have hDlo : 2 ^ 126 ≤ D := hrep.half
    have hDpos : 0 < D := (Nat.two_pow_pos _).trans_le hDlo
    obtain ⟨hy, -, hyhi⟩ := clz_spec hDpos hrep.lt
    rw [clz_words hDpos hrep.lt, shl_of_lt hy hyhi]
    exact ⟨_, _, rfl, hyhi, hsum⟩
  · obtain rfl : x = 0 := by omega
    have hshl : shl 128 (a.rh - b.rh / 2 ^ k) (0 : Nat) = some (a.rh - b.rh / 2 ^ k) := by
      rw [shl_of_lt (by norm_num) (by rwa [pow_zero, Nat.mul_one]), pow_zero, Nat.mul_one]
    simp only [pow_zero, Nat.mul_one] at hsum hlo
    rw [clz_eq_zero (by norm_num) hlo hlt, pow_zero, Nat.mul_one] at hsum
    rw [if_neg (lt_irrefl 0), hshl]
    exact ⟨_, _, rfl, hlt, hsum⟩

/-- What a number with only an upper half stands for. -/
theorem Qint.toRat_upper (h : a.rl = 0) : a.toRat = a.upperWide.toRat 128 := by
  have hulp : (2 : ℚ) ^ 128 * a.wide.ulp 256 = a.upperWide.ulp 128 := by
    rw [ulp, ulp, ← zpow_natCast, ← zpow_add₀ (by norm_num)]
    congr 1
    simp only [Qint.wide, Qint.upperWide]
    push_cast
    ring
  rw [Qint.toRat, WideFloat.toRat, WideFloat.toRat, ← hulp]
  simp only [Qint.wide, Qint.upperWide, Qint.r, h]
  push_cast
  ring

theorem upper_ofHalves {c : Nat} {e : Int} {s : Bool} (hc : c < 2 ^ 128) :
    (Qint.ofHalves c 0 e s).upperWide = ⟨s, c, e⟩ ∧ (Qint.ofHalves c 0 e s).rl = 0 := by
  obtain ⟨hrh, hrl⟩ := @Qint.halves_ofHalves c 0 e s hc (Nat.two_pow_pos _)
  refine ⟨?_, hrl⟩
  rw [Qint.upperWide, hrh]
  rfl

theorem addLargerQint22_spec (h : Larger 128 a.upperWide b.upperWide (exDiff a.ex b.ex)) :
    ∃ r, addLargerQint22 a b = some r ∧ r.rl = 0 ∧ IsSum 128 a.upperWide b.upperWide r.upperWide := by
  rw [addLargerQint22]
  generalize exDiff a.ex b.ex = k at h
  rw [shifted22_eq Qint.rh_lt, Option.bind_eq_bind, Option.bind_some]
  by_cases hne : a.sgn = b.sgn
  · have hb : b.rh / 2 ^ k < 2 ^ 128 := (Nat.div_le_self _ _).trans_lt Qint.rh_lt
    have hsum := h.isSum_addSig hne (by norm_num)
    have hlt : (addSig 128 (a.rh + b.rh / 2 ^ k)).1 < 2 ^ 128 := addSig_lt (Nat.add_lt_add Qint.rh_lt hb)
    simp only [Qint.upperWide] at hsum
    rw [addSig_word Qint.rh_lt hb] at hsum hlt
    rw [if_neg fun hxor => Bool.xor_iff_ne.1 hxor hne, addu128]
    split at hlt
    · next hcarry =>
      simp -implicitDefEqProofs only [if_pos hcarry, ne_eq, one_ne_zero, not_false_eq_true, if_true] at hsum ⊢
      obtain ⟨hwide, hrl⟩ := @upper_ofHalves _ (a.ex + 1) a.sgn hlt
      exact ⟨_, rfl, hrl, by rw [hwide]; exact hsum⟩
    · next hcarry =>
      simp -implicitDefEqProofs only [if_neg hcarry, ne_eq, not_true_eq_false, if_false, Nat.cast_zero,
        add_zero] at hsum ⊢
      obtain ⟨hwide, hrl⟩ := @upper_ofHalves _ a.ex a.sgn hlt
      exact ⟨_, rfl, hrl, by rw [hwide]; exact hsum⟩
  · obtain ⟨c, ex, hsub, hc, hsum⟩ := subtractQint22_spec h hne
    obtain ⟨hwide, hrl⟩ := @upper_ofHalves c (a.ex - (ex : Int)) a.sgn hc
    rw [if_pos (Bool.xor_iff_ne.2 hne), hsub]
    exact ⟨_, rfl, hrl, by rw [hwide]; exact hsum⟩

theorem Qint.rh_ne_zero (ha : a.Normal) : a.rh ≠ 0 := fun h => by
  have hlo := (Qint.normal_iff_upper.1 ha).1
  exact absurd (h ▸ hlo : 2 ^ (128 - 1) ≤ 0) (not_le.2 (Nat.two_pow_pos _))

theorem Qint.IsZero.halves_eq (ha : a.IsZero) : a.rh = 0 ∧ a.rl = 0 := Qint.halves_eq_zero.2 ha.r_eq

/-- The exponents of two numbers, the first of the greater upper half. -/
theorem exDiff_larger_upper (ha : a.Normal) (hb : b.Normal) (ha' : a.InRange) (hb' : b.InRange)
    (h : b.ex < a.ex ∨ a.ex = b.ex ∧ b.rh < a.rh) : Larger 128 a.upperWide b.upperWide (exDiff a.ex b.ex) := by
  obtain ⟨-, hahi⟩ := ha'
  obtain ⟨hblo, -⟩ := hb'
  have hk := @exDiff_eq a.ex b.ex (by omega) (by omega)
  refine larger_of_lt (Qint.normal_iff_upper.1 ha) (Qint.normal_iff_upper.1 hb) ?_ ?_
  · show a.ex = b.ex + (exDiff a.ex b.ex : Int)
    omega
  · rcases h with h | ⟨-, h⟩
    · exact Or.inl (by omega)
    · exact Or.inr h

/-- **The sum of the upper halves of two numbers** whose lower halves are zero. -/
theorem addQint22_spec (calls : Nat) (ha : a.Normal ∨ a.IsZero) (hb : b.Normal ∨ b.IsZero) (ha' : a.InRange)
    (hb' : b.InRange) (hal : a.rl = 0) (hbl : b.rl = 0) :
    ∃ r, addQint22 (calls + 2) a b = some r ∧ r.rl = 0 ∧ IsSum 128 a.upperWide b.upperWide r.upperWide := by
  rw [addQint22]
  rcases ha with ha | ha
  · rw [if_neg (Qint.rh_ne_zero ha)]
    rcases hb with hb | hb
    · have hcmp := compared a.ex b.ex a.rh b.rh
      rw [if_neg (Qint.rh_ne_zero hb), cmpQint22]
      generalize (compare a.ex b.ex).then (compare a.rh b.rh) = o at hcmp ⊢
      cases hcmp with
      | eq hex hr =>
        dsimp only
        by_cases hs : a.sgn = b.sgn
        · rw [if_neg fun h => Bool.xor_iff_ne.1 h hs]
          exact ⟨_, rfl, hal, isSum_double (a := a.upperWide) (b := b.upperWide) (Qint.normal_iff_upper.1 ha) hs hr hex⟩
        · rw [if_pos (Bool.xor_iff_ne.2 hs)]
          exact ⟨_, rfl, rfl, isSum_cancel (a := a.upperWide) (b := b.upperWide) rfl hs hr hex⟩
      | lt h =>
        have hswap : cmpQint22 b a = .gt := by
          have hcmp := compared b.ex a.ex b.rh a.rh
          rw [cmpQint22]
          generalize (compare b.ex a.ex).then (compare b.rh a.rh) = o at hcmp ⊢
          cases hcmp with
          | eq hex hr => omega
          | lt h' => omega
          | gt _ => rfl
        obtain ⟨r, hr, hrl, hsum⟩ := addLargerQint22_spec
          (exDiff_larger_upper hb ha hb' ha' (h.imp id fun h => ⟨h.1.symm, h.2⟩))
        dsimp only
        rw [addQint22, hswap, if_neg (Qint.rh_ne_zero hb), if_neg (Qint.rh_ne_zero ha)]
        exact ⟨r, hr, hrl, hsum.symm⟩
      | gt h => exact addLargerQint22_spec (exDiff_larger_upper ha hb ha' hb' h)
    · rw [if_pos hb.halves_eq.1]
      exact ⟨a, rfl, hal, (isSum_zero hb.halves_eq.1 (Or.inl (Qint.normal_iff_upper.1 ha))).symm⟩
  · rw [if_pos ha.halves_eq.1]
    exact ⟨b, rfl, hbl, isSum_zero ha.halves_eq.1 (hb.imp Qint.normal_iff_upper.1 fun h => h.halves_eq.1)⟩

end Qint

/-! ## The bounds -/

end Dellingr.Crmath
