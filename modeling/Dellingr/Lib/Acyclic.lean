import Mathlib.Data.List.Chain
import Mathlib.Data.Set.Finite.Basic
import Mathlib.Order.WellFoundedSet

/-!
# Acyclic graphs

A graph is a relation between its nodes: `r m n` when an edge leads from `m` to `n`. It
is *acyclic* when no node leads to itself, and a path is a list of nodes each with an
edge to the next.

  - A *rank* that grows along every edge excludes cycles (`Acyclic.of_rank`), and bounds
    the paths (`length_le_of_rank`).
  - A finite set of nodes each of which has an edge from a node of the set contains a
    cycle (`not_acyclic_of_predecessors`).
  - Along the edges of an acyclic graph of finitely many nodes one may do induction,
    from the nodes an edge leads to (`Acyclic.induction`).
-/

namespace Graph

open Relation

variable {ν : Type*} {r : ν → ν → Prop}

/-- No node leads to itself. -/
def Acyclic (r : ν → ν → Prop) : Prop := ∀ n, ¬TransGen r n n

theorem Acyclic.of_rank (rank : ν → ℕ) (h : ∀ m n, r m n → rank m < rank n) : Acyclic r := by
  have hlt : ∀ m n, TransGen r m n → rank m < rank n := by
    intro m n hmn
    induction hmn with
    | single hr => exact h _ _ hr
    | tail _ hr ih => exact ih.trans (h _ _ hr)
  exact fun n hn => lt_irrefl _ (hlt n n hn)

/-- A path is no longer than the greatest rank. -/
theorem length_le_of_rank {rank : ν → ℕ} {bound : ℕ} (h : ∀ m n, r m n → rank m < rank n)
    (hbound : ∀ n, rank n ≤ bound) {n : ν} {path : List ν} (hpath : (n :: path).IsChain r) :
    rank n + path.length ≤ bound := by
  induction path generalizing n with
  | nil => exact hbound n
  | cons m path ih =>
    obtain ⟨hr, hpath⟩ := List.isChain_cons_cons.1 hpath
    calc
      rank n + (path.length + 1) = rank n + 1 + path.length := by omega
      _ ≤ rank m + path.length := Nat.add_le_add_right (h n m hr) _
      _ ≤ bound := ih hpath

/-- Where every node of a finite set has an edge from one of the set, there is a cycle. -/
theorem not_acyclic_of_predecessors {s : Set ν} (hfin : s.Finite) (hne : s.Nonempty)
    (h : ∀ n ∈ s, ∃ m ∈ s, r m n) : ¬Acyclic r := by
  intro hac
  have : IsStrictOrder ν (TransGen r) := { irrefl := hac, trans := fun _ _ _ => TransGen.trans }
  obtain ⟨n, hn, hmin⟩ := (hfin.wellFoundedOn (r := TransGen r)).has_min Set.univ
    (hne.to_subtype.elim fun n => ⟨n, trivial⟩)
  obtain ⟨m, hm, hmn⟩ := h n n.2
  exact hmin ⟨m, hm⟩ trivial (.single hmn)

/-- Induction over the finitely many nodes of an acyclic graph: what holds of a node when
    it holds of those its edges lead to, holds of all. -/
theorem Acyclic.induction (hac : Acyclic r) {s : Set ν} (hfin : s.Finite)
    (hclosed : ∀ m ∈ s, ∀ n, r m n → n ∈ s) {P : ν → Prop}
    (h : ∀ m ∈ s, (∀ n, r m n → P n) → P m) : ∀ n ∈ s, P n := by
  have : IsStrictOrder ν (flip (TransGen r)) :=
    { irrefl := hac, trans := fun _ _ _ h₁ h₂ => TransGen.trans h₂ h₁ }
  intro n hn
  refine (hfin.wellFoundedOn (r := flip (TransGen r))).induction hn fun m hm ih => ?_
  exact h m hm fun k hk => ih k (hclosed m hm k hk) (.single hk)

end Graph
