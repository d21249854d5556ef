import Mathlib.Data.Nat.Basic
import Mathlib.Logic.Equiv.Basic
import Mathlib.Order.Basic

/-!
# The order of a heap in place

A heap in the first `n` places of a sequence `v` has at every place a value that may come before
the values at its two children (`Heap`). A total preorder `le` says which value may come before
which.

* A heap that is broken at one place (`HeapBut`) is mended by exchanging the value there with the
  least of its children (`HeapBut.sift`), which breaks it further down, until none is less
  (`HeapBut.heap`).
* The first value of a heap may come before all (`Heap.first_le`). Exchanged with the last one it
  is in its place, and the rest is a heap broken at the first place (`Heap.extract`). So a sequence
  is put in order from its end on (`Placed`), the least values last.

Values are exchanged by `Equiv.swap` on the places, and in a list by `swapAt`.
-/

namespace HeapOrder

variable {α : Type*} {le : α → α → Prop} {v w : Nat → α} {lo root k n e : Nat}

/-- A place and one of its two children. -/
def Child (p c : Nat) : Prop := c = p * 2 + 1 ∨ c = p * 2 + 2

/-- From `lo` on, every place below `n` is in order with its parent. -/
def Heap (le : α → α → Prop) (v : Nat → α) (lo n : Nat) : Prop :=
  ∀ p c, lo ≤ p → Child p c → c < n → le (v p) (v c)

/-- A heap that is broken at most between one place and its children. -/
structure HeapBut (le : α → α → Prop) (v : Nat → α) (lo root n : Nat) : Prop where
  order : ∀ p c, lo ≤ p → p ≠ root → Child p c → c < n → le (v p) (v c)
  /-- What is at the children is in order with the parent of the place. -/
  bridge : ∀ p c, lo ≤ p → Child p root → Child root c → c < n → le (v p) (v c)

/-- From `k` on, every place has a value that may come before all at earlier places. -/
def Placed (le : α → α → Prop) (v : Nat → α) (k n : Nat) : Prop :=
  ∀ i j, i < j → k ≤ j → j < n → le (v j) (v i)

/-- The values of the first places of `v` are rearranged among themselves. -/
def Rearranged (e : Nat) (v w : Nat → α) : Prop :=
  (∀ i < e, ∃ i' < e, w i = v i') ∧ ∀ i, e ≤ i → w i = v i

/-! ## Sifting -/

theorem heap_of_half (h : n / 2 ≤ lo) : Heap le v lo n := by
  rintro p c hp (rfl | rfl) hc
  · omega
  · omega

/-- A heap below a place is broken at most at that place. -/
theorem Heap.but (h : Heap le v (k + 1) n) : HeapBut le v k k n where
  order p c hp hne := h p c (by omega)
  bridge p c hp hk := by
    rcases hk with hk | hk <;> omega

/-- The heap is mended where the value is in order with the children. -/
theorem HeapBut.heap (h : HeapBut le v lo root n) (hroot : ∀ c, Child root c → c < n → le (v root) (v c)) :
    Heap le v lo n := by
  intro p c hp hc hn
  by_cases hpr : p = root
  · subst hpr
    exact hroot c hc hn
  · exact h.order p c hp hpr hc hn

/-- The value at the place is exchanged with the least at its children. -/
theorem HeapBut.sift (h : HeapBut le v lo root n) {s : Nat} (hs : Child root s) (hlo : lo ≤ root) (hn : s < n)
    (hleast : ∀ c, Child root c → c < n → le (v s) (v c)) (hroot : le (v s) (v root)) :
    HeapBut le (v ∘ Equiv.swap root s) lo s n := by
  have hlt : root < s := by rcases hs with hs | hs <;> omega
  have hat : ∀ i, i ≠ root → i ≠ s → (v ∘ Equiv.swap root s) i = v i := fun i h₁ h₂ =>
    congrArg v (Equiv.swap_apply_of_ne_of_ne h₁ h₂)
  have hatRoot : (v ∘ Equiv.swap root s) root = v s := congrArg v (Equiv.swap_apply_left root s)
  have hatSon : (v ∘ Equiv.swap root s) s = v root := congrArg v (Equiv.swap_apply_right root s)
  constructor
  · intro p c hp hps hc hcn
    have hpc : p < c := by rcases hc with hc | hc <;> omega
    by_cases hpr : p = root
    · subst hpr
      rw [hatRoot]
      by_cases hcs : c = s
      · rw [hcs, hatSon]
        exact hroot
      · rw [hat c (by omega) hcs]
        exact hleast c hc hcn
    · rw [hat p hpr hps]
      by_cases hcr : c = root
      · rw [hcr, hatRoot]
        exact h.bridge p s hp (hcr ▸ hc) hs hn
      · have hcs : c ≠ s := by
          rintro rfl
          rcases hc with hc | hc <;> rcases hs with hs | hs <;> omega
        rw [hat c hcr hcs]
        exact h.order p c hp hpr hc hcn
  · intro p c hp hps hc hcn
    obtain rfl : p = root := by rcases hps with hps | hps <;> rcases hs with hs | hs <;> omega
    have hsc : s < c := by rcases hc with hc | hc <;> omega
    rw [hatRoot, hat c (by omega) (by omega)]
    exact h.order s c (by omega) (by omega) hc hcn

/-! ## Extracting the first value -/

/-- The first value of a heap may come before all. -/
theorem Heap.first_le [Std.Refl le] [IsTrans α le] (h : Heap le v 0 n) {i : Nat} (hi : i < n) : le (v 0) (v i) := by
  induction i using Nat.strongRecOn with
  | ind i ih =>
    rcases Nat.eq_zero_or_pos i with rfl | hpos
    · exact Std.Refl.refl _
    · have hchild : Child ((i - 1) / 2) i := by rw [Child]; omega
      exact IsTrans.trans _ _ _ (ih ((i - 1) / 2) (by omega) (by omega)) (h _ i (Nat.zero_le _) hchild hi)

theorem Rearranged.refl (e : Nat) (v : Nat → α) : Rearranged e v v := ⟨fun i hi => ⟨i, hi, rfl⟩, fun _ _ => rfl⟩

theorem Rearranged.swap (h : Rearranged e v w) {a b : Nat} (ha : a < e) (hb : b < e) :
    Rearranged e v (w ∘ Equiv.swap a b) := by
  constructor
  · intro i hi
    obtain ⟨i', hi', heq⟩ : ∃ i' < e, (w ∘ Equiv.swap a b) i = w i' := by
      by_cases hia : i = a
      · exact ⟨b, hb, by rw [hia]; exact congrArg w (Equiv.swap_apply_left a b)⟩
      by_cases hib : i = b
      · exact ⟨a, ha, by rw [hib]; exact congrArg w (Equiv.swap_apply_right a b)⟩
      exact ⟨i, hi, congrArg w (Equiv.swap_apply_of_ne_of_ne hia hib)⟩
    obtain ⟨j, hj, hv⟩ := h.1 i' hi'
    exact ⟨j, hj, heq.trans hv⟩
  · intro i hi
    rw [← h.2 i hi]
    exact congrArg w (Equiv.swap_apply_of_ne_of_ne (by omega) (by omega))

/-- With the first value at the end of the heap, the rest is broken at most at its first place. -/
theorem Heap.extract (h : Heap le v 0 (e + 1)) : HeapBut le (v ∘ Equiv.swap 0 e) 0 0 e where
  order p c _ hp hc hce := by
    have hpc : p < c := by rcases hc with hc | hc <;> omega
    have hat : ∀ i, i ≠ 0 → i ≠ e → (v ∘ Equiv.swap 0 e) i = v i := fun i h₁ h₂ =>
      congrArg v (Equiv.swap_apply_of_ne_of_ne h₁ h₂)
    rw [hat p hp (by omega), hat c (by omega) (by omega)]
    exact h p c (Nat.zero_le _) hc (by omega)
  bridge p c _ hp := by
    rcases hp with hp | hp <;> omega

/-- The value that is extracted is in its place, whatever is done to the rest of the heap. -/
theorem Placed.extract [Std.Refl le] [IsTrans α le] (h : Placed le v (e + 1) n) (hheap : Heap le v 0 (e + 1))
    (hw : Rearranged e (v ∘ Equiv.swap 0 e) w) : Placed le w e n := by
  -- Every value up to `e` was in the heap.
  have hsource : ∀ i, i ≤ e → ∃ i', i' ≤ e ∧ w i = v i' := by
    intro i hi
    rcases Nat.lt_or_ge i e with hlt | hge
    · obtain ⟨i', hi', hwi⟩ := hw.1 i hlt
      rw [hwi]
      rcases Nat.eq_zero_or_pos i' with rfl | hpos
      · exact ⟨e, le_rfl, congrArg v (Equiv.swap_apply_left 0 e)⟩
      · exact ⟨i', hi'.le, congrArg v (Equiv.swap_apply_of_ne_of_ne (by omega) (by omega))⟩
    · obtain rfl : i = e := Nat.le_antisymm hi hge
      rw [hw.2 i le_rfl]
      exact ⟨0, Nat.zero_le _, congrArg v (Equiv.swap_apply_right 0 i)⟩
  have hafter : ∀ j, e < j → w j = v j := fun j hj => by
    rw [hw.2 j hj.le]
    exact congrArg v (Equiv.swap_apply_of_ne_of_ne (by omega) (by omega))
  intro i j hij hej hjn
  rcases Nat.lt_or_ge e j with hlt | hge
  · rw [hafter j hlt]
    rcases Nat.lt_or_ge e i with hi | hi
    · rw [hafter i hi]
      exact h i j hij hlt hjn
    · obtain ⟨i', hi', hwi⟩ := hsource i hi
      rw [hwi]
      exact h i' j (by omega) hlt hjn
  · obtain rfl : j = e := Nat.le_antisymm hge hej
    obtain ⟨i', hi', hwi⟩ := hsource i hij.le
    have hlast : w j = v 0 := by
      rw [hw.2 j le_rfl]
      exact congrArg v (Equiv.swap_apply_right 0 j)
    rw [hlast, hwi]
    exact hheap.first_le (Nat.lt_succ_of_le hi')

/-! ## Lists -/

/-- Exchange the values at two places of a list. -/
def swapAt (xs : List α) (a b : Nat) : List α :=
  match xs[a]?, xs[b]? with
  | some x, some y => (xs.set a y).set b x
  | _, _ => xs

variable {xs : List α} {a b : Nat}

theorem swapAt_eq (ha : a < xs.length) (hb : b < xs.length) :
    swapAt xs a b = (xs.set a xs[b]).set b xs[a] := by
  rw [swapAt, List.getElem?_eq_getElem ha, List.getElem?_eq_getElem hb]

theorem swapAt_self (xs : List α) (a : Nat) : swapAt xs a a = xs := by
  rcases Nat.lt_or_ge a xs.length with ha | ha
  · rw [swapAt_eq ha ha, List.set_getElem_self, List.set_getElem_self]
  · rw [swapAt, List.getElem?_eq_none ha]

theorem swapAt_perm (ha : a < xs.length) (hb : b < xs.length) : (swapAt xs a b).Perm xs := by
  rw [swapAt_eq ha hb]
  exact List.set_set_perm ha hb

theorem length_swapAt (xs : List α) (a b : Nat) : (swapAt xs a b).length = xs.length := by
  rw [swapAt]
  split
  · rw [List.length_set, List.length_set]
  · rfl

/-- The values of a list at its places, and another one beyond. -/
def place (d : α) (xs : List α) (i : Nat) : α := xs.getD i d

theorem place_of_lt (d : α) {i : Nat} (h : i < xs.length) : place d xs i = xs[i] := by
  rw [place, List.getD_eq_getElem?_getD, List.getElem?_eq_getElem h]
  rfl

theorem place_swapAt (d : α) (ha : a < xs.length) (hb : b < xs.length) :
    place d (swapAt xs a b) = place d xs ∘ Equiv.swap a b := by
  funext i
  rw [place, swapAt_eq ha hb, List.getD_eq_getElem?_getD, Function.comp, place, List.getD_eq_getElem?_getD]
  congr 1
  rw [List.getElem?_set, List.length_set, List.getElem?_set]
  by_cases hib : b = i
  · subst hib
    rw [if_pos rfl, if_pos hb, Equiv.swap_apply_right, List.getElem?_eq_getElem ha]
  · rw [if_neg hib]
    by_cases hia : a = i
    · subst hia
      rw [if_pos rfl, if_pos ha, Equiv.swap_apply_left, List.getElem?_eq_getElem hb]
    · rw [if_neg hia, Equiv.swap_apply_of_ne_of_ne (Ne.symm hia) (Ne.symm hib)]

/-! ## Strict weak orders -/

/-- Among the values `S` one may come before another that is not less. Any other value may come last. -/
def Before (S : α → Prop) (lt : α → α → Prop) (a b : α) : Prop := S b → S a ∧ ¬lt b a

section Before

variable {S : α → Prop} {lt : α → α → Prop}

theorem before_refl [IsStrictWeakOrder {a // S a} fun a b => lt a b] : Std.Refl (Before S lt) where
  refl a ha := ⟨ha, irrefl_of (fun a b : {a // S a} => lt a b) ⟨a, ha⟩⟩

/-- What is not less is transitive in a strict weak order. -/
theorem before_trans [IsStrictWeakOrder {a // S a} fun a b => lt a b] : IsTrans α (Before S lt) where
  trans a b c hab hbc hc := by
    obtain ⟨hb, hcb⟩ := hbc hc
    obtain ⟨ha, hba⟩ := hab hb
    refine ⟨ha, fun hca => ?_⟩
    have htrans := fun x y z => trans_of (fun a b : {a // S a} => lt a b) (a := x) (b := y) (c := z)
    -- The middle value is less than neither, and neither is less than it.
    have hab' : ¬lt a b := fun h => hcb (htrans ⟨c, hc⟩ ⟨a, ha⟩ ⟨b, hb⟩ hca h)
    have hbc' : ¬lt b c := fun h => hba (htrans ⟨b, hb⟩ ⟨c, hc⟩ ⟨a, ha⟩ h hca)
    have hincomp : ∀ x y z : {a // S a}, ¬lt x y ∧ ¬lt y x → ¬lt y z ∧ ¬lt z y → ¬lt x z ∧ ¬lt z x :=
      IsStrictWeakOrder.incomp_trans
    exact (hincomp ⟨a, ha⟩ ⟨b, hb⟩ ⟨c, hc⟩ ⟨hab', hba⟩ ⟨hbc', hcb⟩).2 hca

end Before

end HeapOrder
