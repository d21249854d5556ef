import Mathlib.Data.BitVec
import Mathlib.Data.Set.Card
import Mathlib.Data.Int.CardIntervalMod
import Mathlib.Logic.Function.Iterate

/-!
# Rejection sampling from a stream of words

A generator is a step `next` that gives an output and the state after it. Outputs are drawn until one is
accepted.

* `drawUntil` returns what the first accepted output gives, once the fuel covers it
  (`drawUntil_of_accepted`).
* A counter that adds an odd word passes every state (`exists_counter_eq`), and the output functions in use
  are bijections: an exclusive or with a right shift (`xorShift_injective`), and the product with an odd word.
* Words below a bound, taken modulo a span, and the first `N % span` of them rejected, give each residue
  equally often (`ncard_accepted`).
-/

namespace Rejection

/-! ## The loop -/

section Loop

variable {σ α β : Type} (next : σ → α × σ) (accept : α → Option β)

/-- Draws outputs until one is accepted, at most `fuel` of them. -/
def drawUntil : Nat → σ → Option (β × σ)
  | 0, _ => none
  | fuel + 1, s =>
    match accept (next s).1 with
    | some b => some (b, (next s).2)
    | none => drawUntil fuel (next s).2

/-- The state after `n` draws. -/
def after (n : Nat) (s : σ) : σ := (fun s => (next s).2)^[n] s

/-- The output of draw `n`, counted from zero. -/
def output (n : Nat) (s : σ) : α := (next (after next n s)).1

theorem after_succ (n : Nat) (s : σ) : after next (n + 1) s = after next n (next s).2 :=
  Function.iterate_succ_apply _ n s

theorem output_succ (n : Nat) (s : σ) : output next (n + 1) s = output next n (next s).2 := by
  rw [output, output, after_succ]

variable {next accept} {fuel n : Nat} {s : σ} {b : β}

/-- The loop returns what the first accepted output gives. -/
theorem drawUntil_eq (hn : n < fuel) (hrej : ∀ m < n, accept (output next m s) = none)
    (hacc : accept (output next n s) = some b) :
    drawUntil next accept fuel s = some (b, after next (n + 1) s) := by
  induction n generalizing fuel s with
  | zero =>
    obtain ⟨fuel, rfl⟩ := Nat.exists_eq_succ_of_ne_zero (Nat.ne_of_gt hn)
    change accept (next s).1 = some b at hacc
    simp only [drawUntil, hacc]
    rfl
  | succ n ih =>
    obtain ⟨fuel, rfl⟩ := Nat.exists_eq_succ_of_ne_zero (Nat.ne_zero_of_lt hn)
    have hfirst : accept (next s).1 = none := hrej 0 n.succ_pos
    simp only [drawUntil, hfirst]
    rw [after_succ]
    refine ih (Nat.lt_of_succ_lt_succ hn) (fun m hm => ?_) (by rw [← output_succ]; exact hacc)
    rw [← output_succ]
    exact hrej (m + 1) (Nat.succ_lt_succ hm)

/-- If an output within the fuel is accepted, then the loop returns, with the first such output. -/
theorem drawUntil_of_accepted (h : ∃ n < fuel, (accept (output next n s)).isSome = true) :
    ∃ n < fuel, ∃ b, (∀ m < n, accept (output next m s) = none) ∧ accept (output next n s) = some b ∧
      drawUntil next accept fuel s = some (b, after next (n + 1) s) := by
  classical
  have hex : ∃ n, (accept (output next n s)).isSome = true := h.imp fun n h => h.2
  obtain ⟨k, hk, hacc⟩ := h
  have hlt : Nat.find hex < fuel := Nat.lt_of_le_of_lt (Nat.find_min' hex hacc) hk
  obtain ⟨b, hb⟩ := Option.isSome_iff_exists.1 (Nat.find_spec hex)
  have hrej : ∀ m < Nat.find hex, accept (output next m s) = none := fun m hm =>
    Option.not_isSome_iff_eq_none.1 (Nat.find_min hex hm)
  exact ⟨Nat.find hex, hlt, b, hrej, hb, drawUntil_eq hlt hrej hb⟩

/-- What the loop returns is what some output gives. -/
theorem accept_of_drawUntil {s' : σ} (h : drawUntil next accept fuel s = some (b, s')) :
    ∃ a, accept a = some b := by
  induction fuel generalizing s with
  | zero => cases h
  | succ fuel ih =>
    simp only [drawUntil] at h
    split at h
    · next hacc =>
      cases h
      exact ⟨_, hacc⟩
    · exact ih h

end Loop

/-! ## Words -/

section Words

variable {w : Nat}

/-- A counter that adds a word with an inverse passes every word. -/
theorem exists_counter_eq {step inverse : BitVec w} (h : step * inverse = 1) (start target : BitVec w) :
    ∃ n < 2 ^ w, start + BitVec.ofNat w (n + 1) * step = target := by
  refine ⟨((target - start) * inverse - 1).toNat, BitVec.isLt _, ?_⟩
  rw [BitVec.ofNat_add, BitVec.ofNat_toNat, BitVec.setWidth_eq]
  calc start + ((target - start) * inverse - 1 + 1#w) * step
      = start + (target - start) * (step * inverse) := by
        rw [show (1#w : BitVec w) = 1 from rfl]
        ring
    _ = target := by rw [h]; ring

theorem mul_injective {factor inverse : BitVec w} (h : factor * inverse = 1) :
    Function.Injective fun x : BitVec w => x * factor := fun x y hxy => by
  have hxy : x * factor = y * factor := hxy
  calc x = x * factor * inverse := by rw [mul_assoc, h, mul_one]
    _ = y * factor * inverse := by rw [hxy]
    _ = y := by rw [mul_assoc, h, mul_one]

/-- The exclusive or with a right shift loses nothing: the high bits stay, and each lower bit follows from
    those above it. -/
theorem xorShift_injective {k : Nat} (hk : 0 < k) :
    Function.Injective fun x : BitVec w => x ^^^ (x >>> k) := fun x y hxy => by
  have hbit : ∀ d i, w ≤ i + d → x.getLsbD i = y.getLsbD i := by
    intro d
    induction d with
    | zero => intro i hi; rw [BitVec.getLsbD_of_ge x i hi, BitVec.getLsbD_of_ge y i hi]
    | succ d ih =>
      intro i hi
      have hhigh := ih (k + i) (by omega)
      have hxor := congrArg (fun z => BitVec.getLsbD z i) hxy
      simp only [BitVec.getLsbD_xor, BitVec.getLsbD_ushiftRight, hhigh] at hxor
      exact Bool.xor_right_inj.1 (by rw [Bool.xor_comm, hxor, Bool.xor_comm])
  exact BitVec.eq_of_getLsbD_eq fun i hi => hbit w i (by omega)

instance instFiniteBitVec : Finite (BitVec w) := Finite.of_injective BitVec.toFin fun _ _ h => BitVec.toFin_inj.1 h

end Words

/-! ## Counting -/

/-- Among the numbers below `N` whose first `N % span` are rejected, each residue occurs `N / span` times. -/
theorem ncard_accepted {N span residue : Nat} (hspan : 0 < span) (hres : residue < span) :
    {r | r < N ∧ N % span ≤ r ∧ r % span = residue}.ncard = N / span := by
  -- The accepted numbers of a residue are spaced by the span. A residue that is itself rejected starts one
  -- span later, and so ends one later.
  let first := if residue < N % span then residue + span else residue
  have himage : {r | r < N ∧ N % span ≤ r ∧ r % span = residue}
      = (fun i => first + i * span) '' Set.Iio (N / span) := by
    have hN : N % span + N / span * span = N := by rw [Nat.mul_comm]; exact Nat.mod_add_div N span
    have hmod := Nat.mod_lt N hspan
    ext r
    simp only [Set.mem_ofPred_eq, Set.mem_image, Set.mem_Iio]
    constructor
    · rintro ⟨hr, hge, hmr⟩
      have hq : residue + r / span * span = r := by
        rw [← hmr, Nat.mul_comm]; exact Nat.mod_add_div r span
      by_cases h : residue < N % span
      · have hpos : 0 < r / span := Nat.pos_of_ne_zero fun h0 => by rw [h0] at hq; omega
        have hlt : r / span < N / span + 1 := Nat.lt_of_mul_lt_mul_right (a := span) (by
          rw [Nat.succ_mul]; omega)
        refine ⟨r / span - 1, by omega, ?_⟩
        rw [show first = residue + span from if_pos h, Nat.sub_mul]
        have := Nat.mul_le_mul_right span hpos
        omega
      · have hlt : r / span < N / span := Nat.lt_of_mul_lt_mul_right (a := span) (by omega)
        exact ⟨r / span, hlt, by rw [show first = residue from if_neg h, hq]⟩
    · rintro ⟨i, hi, rfl⟩
      have hle := Nat.mul_le_mul_right span hi
      rw [Nat.succ_mul] at hle
      refine ⟨?_, ?_, ?_⟩
      · show (if residue < N % span then residue + span else residue) + i * span < N
        split <;> omega
      · show N % span ≤ (if residue < N % span then residue + span else residue) + i * span
        split <;> omega
      · show ((if residue < N % span then residue + span else residue) + i * span) % span = residue
        rw [Nat.add_mul_mod_self_right]
        split
        · rw [Nat.add_mod_right, Nat.mod_eq_of_lt hres]
        · exact Nat.mod_eq_of_lt hres
  rw [himage, Set.ncard_image_of_injective _ fun i j hij => Nat.eq_of_mul_eq_mul_right hspan
    (Nat.add_left_cancel hij)]
  simp [Set.ncard_eq_toFinset_card']

end Rejection
