import Mathlib.Algebra.Order.Ring.Nat
import Mathlib.Data.List.Basic

/-!
# Stamped shapes

A state with a *shape*, a list that a holder of a position relies on, and a
*stamp*, a 64-bit counter that is moved whenever the list does more than grow at
its end. A holder that remembers the stamp compares it with the current one,
instead of the list: as long as the stamp did not go all the way round, an equal
stamp means that the list the holder knew is a prefix of the current one.

* `Moves n s t`: from `s` to `t` the stamp moved `n` times, and the shape has only
  grown if it did not move;
* `MovesLe b s t`: the same, for some number of moves up to a bound;
* `Moves.prefix_of_eq`: what an equal stamp means;
* `Memo m now P`: a fact remembered with the stamp at the time, for a stamp that never
  goes round.
-/

namespace Stamp

variable {σ κ : Type*} (stamp : σ → UInt64) (shape : σ → List κ)

/-- The stamp moved `n` times; without a move, the shape has only grown. -/
structure Moves (n : Nat) (s t : σ) : Prop where
  stamp_eq : stamp t = stamp s + .ofNat n
  grows : n = 0 → shape s <+: shape t

/-- The stamp moved at most `b` times; without a move, the shape has only grown. -/
def MovesLe (b : Nat) (s t : σ) : Prop := ∃ n ≤ b, Moves stamp shape n s t

variable {stamp shape} {n m b c : Nat} {s t u : σ}

namespace Moves

theorem refl (s : σ) : Moves stamp shape 0 s s := ⟨by simp, fun _ => List.prefix_rfl⟩

theorem trans (h : Moves stamp shape n s t) (h' : Moves stamp shape m t u) :
    Moves stamp shape (n + m) s u where
  stamp_eq := by rw [h'.stamp_eq, h.stamp_eq, UInt64.add_assoc, UInt64.ofNat_add]
  grows hz := (h.grows (by omega)).trans (h'.grows (by omega))

/-- A stamp that moved, but did not go round, is another one. -/
theorem eq_zero_of_eq (h : Moves stamp shape n s t) (hn : n < 2 ^ 64) (heq : stamp t = stamp s) :
    n = 0 := by
  have hst := congrArg UInt64.toNat (h.stamp_eq.symm.trans heq)
  have hlt := (stamp s).toNat_lt
  rw [UInt64.toNat_add, UInt64.toNat_ofNat_of_lt' hn] at hst
  rcases Nat.lt_or_ge ((stamp s).toNat + n) (2 ^ 64) with hw | hw
  · rw [Nat.mod_eq_of_lt hw] at hst
    omega
  · rw [Nat.mod_eq_sub_mod hw, Nat.mod_eq_of_lt (by omega)] at hst
    omega

/-- An equal stamp that did not go round: the shape has only grown. -/
theorem prefix_of_eq (h : Moves stamp shape n s t) (hn : n < 2 ^ 64) (heq : stamp t = stamp s) :
    shape s <+: shape t := h.grows (h.eq_zero_of_eq hn heq)

/-- The number of moves, short of a whole round, is the distance of the stamps. -/
theorem eq_distance (h : Moves stamp shape n s t) (hn : n < 2 ^ 64) :
    n = (stamp t - stamp s).toNat := by
  rw [h.stamp_eq, UInt64.add_comm, UInt64.add_sub_cancel, UInt64.toNat_ofNat_of_lt' hn]

end Moves

namespace MovesLe

/-- The stamp is kept, and the shape grows. -/
theorem of_grows (hs : stamp t = stamp s) (hg : shape s <+: shape t) : MovesLe stamp shape b s t :=
  ⟨0, b.zero_le, by simpa using hs, fun _ => hg⟩

/-- The stamp moves once. -/
theorem of_move (hs : stamp t = stamp s + 1) : MovesLe stamp shape (b + 1) s t :=
  ⟨1, by omega, hs, fun h => absurd h Nat.one_ne_zero⟩

theorem refl (s : σ) : MovesLe stamp shape b s s := of_grows rfl List.prefix_rfl

theorem mono (h : MovesLe stamp shape b s t) (hb : b ≤ c) : MovesLe stamp shape c s t := by
  obtain ⟨n, hn, hm⟩ := h
  exact ⟨n, Nat.le_trans hn hb, hm⟩

theorem trans (h : MovesLe stamp shape b s t) (h' : MovesLe stamp shape c t u) :
    MovesLe stamp shape (b + c) s u := by
  obtain ⟨n, hn, hm⟩ := h
  obtain ⟨n', hn', hm'⟩ := h'
  exact ⟨n + n', by omega, hm.trans hm'⟩

/-- A bound short of a whole round pins the number of moves down. -/
theorem moves (h : MovesLe stamp shape b s t) (hb : b < 2 ^ 64) :
    Moves stamp shape (stamp t - stamp s).toNat s t := by
  obtain ⟨n, hn, hm⟩ := h
  rwa [hm.eq_distance (by omega)] at hm

/-- An equal stamp, after fewer moves than a whole round: the shape has only grown. -/
theorem prefix_of_eq (h : MovesLe stamp shape b s t) (hb : b < 2 ^ 64) (heq : stamp t = stamp s) :
    shape s <+: shape t := by
  obtain ⟨n, hn, hm⟩ := h
  exact hm.prefix_of_eq (by omega) heq

end MovesLe

/-! ## Memos -/

theorem ne_add_one (m : UInt64) : m ≠ m + 1 := by simp

theorem ne_add_two (m : UInt64) : m ≠ m + 1 + 1 := by
  intro h
  have hn := congrArg UInt64.toNat h
  have hlt := m.toNat_lt
  have hone : (1 : UInt64).toNat = 1 := rfl
  rw [UInt64.toNat_add, UInt64.toNat_add, hone] at hn
  omega

/-- A fact remembered with a stamp: it holds if the stamp is the current one. -/
structure Memo (m now : UInt64) (P : Prop) : Prop where
  le : m ≤ now
  fact : m = now → P

/-- A stamp that does not go round keeps a memo, if the fact outlives what does not move
    the stamp. -/
theorem Memo.step {m now now' : UInt64} {P Q : Prop} (h : Memo m now P) (hle : now ≤ now')
    (hpq : now = now' → P → Q) : Memo m now' Q where
  le := UInt64.le_trans h.le hle
  fact heq := by
    subst heq
    have hnow : m = now := UInt64.le_antisymm h.le hle
    exact hpq hnow.symm (h.fact hnow)

end Stamp
