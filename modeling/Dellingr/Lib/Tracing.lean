import Mathlib.Data.Set.Basic

/-!
# Tracing a graph

The argument of a tracing collector, over a graph of nodes of any type. A node may be
*live* or not, and has the nodes it names (`edges`). From roots, the live nodes that
live nodes name are *reached* (`Reaches`).

A tracer keeps the nodes it has marked, and those of them it still has to trace. What it
keeps true (`Tracing`) is that it marks reached nodes only, that it marks the live
roots, and that a marked node which is not waiting has its live nodes marked. Tracing a
node (`Tracing.trace`) keeps this, and when no node is waiting, exactly the reached
nodes are marked (`Tracing.marked_iff`).
-/

variable {ν : Type*}

/-- The nodes reached from roots through live nodes. -/
inductive Tracing.Reaches (live : ν → Prop) (edges : ν → List ν) (roots : List ν) : ν → Prop
  | root {n : ν} : n ∈ roots → live n → Reaches live edges roots n
  | edge {n m : ν} : Reaches live edges roots n → m ∈ edges n → live m → Reaches live edges roots m

/-- What a tracer keeps true of the nodes it has marked and those that are waiting. -/
structure Tracing (live : ν → Prop) (edges : ν → List ν) (roots : List ν) (marked : ν → Prop)
    (waiting : ν → Prop) : Prop where
  sound : ∀ n, marked n → Tracing.Reaches live edges roots n
  rooted : ∀ n ∈ roots, live n → marked n
  traced : ∀ n, marked n → waiting n ∨ ∀ m ∈ edges n, live m → marked m

namespace Tracing

variable {live : ν → Prop} {edges : ν → List ν} {roots : List ν} {marked marked' : ν → Prop}
  {waiting waiting' : ν → Prop}

theorem live_of_reaches {n : ν} (h : Reaches live edges roots n) : live n := by
  cases h with
  | root _ hl => exact hl
  | edge _ _ hl => exact hl

/-- Tracing the node `n`: what it names is marked, and each node newly marked waits
    unless its own are marked. -/
theorem trace {n : ν} (h : Tracing live edges roots marked waiting)
    (hsub : ∀ m, marked m → marked' m)
    (hsound : ∀ m, marked' m → marked m ∨ Reaches live edges roots m)
    (hn : ∀ m ∈ edges n, live m → marked' m)
    (hwait : ∀ m, waiting m → m = n ∨ waiting' m)
    (hnew : ∀ m, marked' m → marked m ∨ waiting' m ∨ ∀ k ∈ edges m, live k → marked' k) :
    Tracing live edges roots marked' waiting' where
  sound m hm := (hsound m hm).elim (h.sound m) id
  rooted m hm hl := hsub m (h.rooted m hm hl)
  traced m hm := by
    rcases hnew m hm with hm | hm | hm
    · rcases h.traced m hm with hw | hw
      · rcases hwait m hw with rfl | hw
        · exact .inr hn
        · exact .inl hw
      · exact .inr fun k hk hl => hsub k (hw k hk hl)
    · exact .inl hm
    · exact .inr hm

/-- When nothing is waiting, the reached nodes are marked, and no others. -/
theorem marked_iff {n : ν} (h : Tracing live edges roots marked waiting)
    (hdone : ∀ m, ¬waiting m) : marked n ↔ Reaches live edges roots n := by
  refine ⟨h.sound n, fun hr => ?_⟩
  induction hr with
  | root hm hl => exact h.rooted _ hm hl
  | edge _ hm hl ih => exact (h.traced _ ih).resolve_left (hdone _) _ hm hl

end Tracing
