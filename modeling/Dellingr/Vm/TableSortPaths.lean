import Dellingr.Vm.Table.Field
import Dellingr.Vm.TableSort

/-!
# The paths of a sort

What `table.sort` promises on its two paths.

* The two accessors ask the same and end with the same values (`rel_tableSortHeap`). A table may
  have to grow to take a value where it had none, and that may be refused in the middle of an exchange.
* A table without sequence metamethods is sorted as a copy, which is written back at the end. When a call
  fails, the state is what the calls left of it (`SortFailed`).
-/

namespace Dellingr.TableSort

open Effect HeapOrder

variable {σ τ ε α β : Type}

/-! ## The two accessors -/

section Scratch

variable {A : Allocator} {tableError : TableError → ε} {host : SortHost σ ε Val} {n a b : Nat} {vs : List Val}
  {t : Table} {s : σ}

/-- A table has the values of a list for the keys from one on, and no value after them. -/
structure Mirrors (n : Nat) (vs : List Val) (t : Table) : Prop where
  ok : t.Ok
  length_eq : vs.length = n
  get : ∀ i < n, t.get (Val.ofNat (i + 1)) = place .nil vs i
  last : t.get (Val.ofNat (n + 1)) = .nil

/-- The table takes every value: it is not refused room, or it has a value for every key. -/
def Roomy (A : Allocator) (vs : List Val) : Prop := A.Total ∨ ∀ v ∈ vs, v ≠ .nil

/-- The same state beside the same values, in a list and in a table. -/
structure Alike (A : Allocator) (n : Nat) (x : List Val × σ) (y : Table × σ) : Prop where
  mirrors : Mirrors n x.1 y.1
  roomy : Roomy A x.1
  state : x.2 = y.2

theorem eq_ofNat {i j : Nat} (hi : i ≤ 2 ^ 53) (hj : j ≤ 2 ^ 53) :
    (Val.ofNat i).eq (Val.ofNat j) = true ↔ i = j := by
  rw [Val.eq_ofNat_iff hj, Val.toNat?_ofNat hi, Option.some.injEq]

/-- A value is set on both sides. -/
theorem Mirrors.insert (h : Mirrors n vs t) (hn : n ≤ maxArrayLen) (ha : a < n) {v : Val}
    (hroom : A.Total ∨ t.get (Val.ofNat (a + 1)) ≠ .nil) :
    ∃ t', t.insert A (Val.ofNat (a + 1)) v = some (.ok (), t') ∧ Mirrors n (vs.set a v) t' := by
  have hmax : maxArrayLen + 1 ≤ 2 ^ 53 := by decide
  obtain ⟨t', he⟩ : ∃ t', t.insert A (Val.ofNat (a + 1)) v = some (.ok (), t') := by
    rcases hroom with hA | hlive
    · exact Table.insert_total h.ok hA (Val.toNat?_ofNat (by omega)) (by omega : a + 1 < n + 1) (by omega) h.last
    · exact Table.insert_live h.ok hlive
  obtain ⟨hok, hget⟩ := Table.get_insert h.ok he
  refine ⟨t', he, hok, by rw [List.length_set]; exact h.length_eq, fun i hi => ?_, ?_⟩
  · rw [hget, h.get i hi, place, place, List.getD_eq_getElem?_getD, List.getD_eq_getElem?_getD, List.getElem?_set]
    by_cases hai : a = i
    · subst hai
      rw [if_pos ((eq_ofNat (by omega) (by omega)).2 rfl), if_pos rfl, if_pos (by rw [h.length_eq]; exact ha)]
      rfl
    · rw [if_neg fun heq => hai (by have := (eq_ofNat (by omega) (by omega)).1 heq; omega), if_neg hai]
  · rw [hget, if_neg fun heq => by have := (eq_ofNat (by omega) (by omega)).1 heq; omega]
    exact h.last

theorem rel_call {f : σ → Except ε β × σ} {u : τ} {t : α} {Q : β → τ × σ → β → α × σ → Prop}
    {E : τ × σ → α × σ → Prop} (hok : ∀ b s', Q b (u, s') b (t, s')) (herr : ∀ s', E (u, s') (t, s')) :
    rel (call f) (call f) Q E (u, s) (t, s) := by
  rw [rel, call, call]
  rcases f s with ⟨e | b, s'⟩
  · exact ⟨rfl, herr s'⟩
  · exact hok b s'

/-- The values read are the same. -/
theorem rel_get_access {Q : Val → List Val × σ → Val → Table × σ → Prop} {E : List Val × σ → Table × σ → Prop}
    (h : Mirrors n vs t) (ha : a < n) (hQ : Q (place .nil vs a) (vs, s) (place .nil vs a) (t, s)) :
    rel ((vecSortAccess : TableSortAccess (List Val) σ ε Val).get a) ((scratchTableSortAccess A tableError).get a)
      Q E (vs, s) (t, s) := by
  have hlen : a < vs.length := by rw [h.length_eq]; exact ha
  have hvec : (vecSortAccess : TableSortAccess (List Val) σ ε Val).get a (vs, s) = .ok (place .nil vs a) (vs, s) := by
    show demand vs[a]? (vs, s) = _
    rw [List.getElem?_eq_getElem hlen, place_of_lt _ hlen]
    rfl
  have hscratch : (scratchTableSortAccess A tableError : TableSortAccess Table σ ε Val).get a (t, s) =
      .ok (place .nil vs a) (t, s) := by
    show Outcome.ok (t.get (Val.ofNat (a + 1))) (t, s) = _
    rw [h.get a ha]
  rw [rel, hvec, hscratch]
  exact hQ

/-- A value is set on both sides. -/
theorem rel_set_access {v : Val} {Q : Unit → List Val × σ → Unit → Table × σ → Prop}
    {E : List Val × σ → Table × σ → Prop} (h : Mirrors n vs t) (hn : n ≤ maxArrayLen) (ha : a < n)
    (hroom : A.Total ∨ t.get (Val.ofNat (a + 1)) ≠ .nil)
    (hQ : ∀ t', Mirrors n (vs.set a v) t' → Q () (vs.set a v, s) () (t', s)) :
    rel ((vecSortAccess : TableSortAccess (List Val) σ ε Val).set a v)
      ((scratchTableSortAccess A tableError).set a v) Q E (vs, s) (t, s) := by
  obtain ⟨t', he, h'⟩ := h.insert (v := v) hn ha hroom
  have hlen : a < vs.length := by rw [h.length_eq]; exact ha
  have hvec : (vecSortAccess : TableSortAccess (List Val) σ ε Val).set a v (vs, s) = .ok () (vs.set a v, s) := by
    show (require (a < vs.length) >>= fun _ => modify fun s => (s.1.set a v, s.2)) (vs, s) = _
    rw [require, if_pos hlen]
    rfl
  have hscratch : (scratchTableSortAccess A tableError : TableSortAccess Table σ ε Val).set a v (t, s) =
      .ok () (t', s) := by
    show (demand (t.insert A (Val.ofNat (a + 1)) v) >>= fun r => do
      modify fun s => (r.2, s.2)
      liftExcept (r.1.mapError tableError)) (t, s) = _
    rw [he]
    rfl
  rw [rel, hvec, hscratch]
  exact hQ t' h'

/-- An exchange of two values on both sides. -/
theorem rel_tableSortSwap (h : Alike A n (vs, s) (t, s)) (hn : n ≤ maxArrayLen) (ha : a < n) (hb : b < n) :
    rel (tableSortSwap (vecSortAccess : TableSortAccess (List Val) σ ε Val) a b)
      (tableSortSwap (scratchTableSortAccess A tableError) a b) (fun _ x _ y => Alike A n x y ∧ x.2 = s) (Alike A n)
      (vs, s) (t, s) := by
  have hm := h.mirrors
  have hlenA : a < vs.length := by rw [hm.length_eq]; exact ha
  have hlenB : b < vs.length := by rw [hm.length_eq]; exact hb
  have hroom : ∀ {i}, i < n → A.Total ∨ place .nil vs i ≠ .nil := fun {i} hi => h.roomy.imp_right fun hall =>
    hall _ (by rw [place_of_lt _ (hm.length_eq ▸ hi)]; exact List.getElem_mem _)
  rw [tableSortSwap, tableSortSwap]
  refine rel_ite (fun _ => rel_pure ⟨h, rfl⟩) fun hab => ?_
  refine rel_bind (rel_get_access hm ha (rel_bind (rel_get_access hm hb (rel_bind ?_))))
  refine rel_set_access hm hn ha ((hroom ha).imp_right fun hne => by rw [hm.get a ha]; exact hne) fun t₁ h₁ => ?_
  have hget : place .nil (vs.set a (place .nil vs b)) b = place .nil vs b := by
    rw [place, place, List.getD_eq_getElem?_getD, List.getD_eq_getElem?_getD, List.getElem?_set_ne hab]
  refine rel_set_access h₁ hn hb ((hroom hb).imp_right fun hne => by rw [h₁.get b hb, hget]; exact hne)
    fun t₂ h₂ => ⟨⟨h₂, h.roomy.imp_right fun hall => ?_, rfl⟩, rfl⟩
  -- The values that are there were there.
  have hswap : (vs.set a (place .nil vs b)).set b (place .nil vs a) = swapAt vs a b := by
    rw [swapAt_eq hlenA hlenB, place_of_lt _ hlenA, place_of_lt _ hlenB]
  intro v hv
  exact hall v ((swapAt_perm hlenA hlenB).mem_iff.1 (hswap ▸ hv))

/-- The same least place is found. -/
theorem rel_tableSortSmallest (h : Alike A n (vs, s) (t, s)) {root stop : Nat} (hleft : root * 2 + 1 < stop)
    (hstop : stop ≤ n) :
    rel (tableSortSmallest (vecSortAccess : TableSortAccess (List Val) σ ε Val) host root (root * 2 + 1) stop)
      (tableSortSmallest (scratchTableSortAccess A tableError) host root (root * 2 + 1) stop)
      (fun r x r' y => r = r' ∧ r < stop ∧ Alike A n x y) (Alike A n) (vs, s) (t, s) := by
  have hm := h.mirrors
  have hsame : ∀ s' : σ, Alike A n (vs, s') (t, s') := fun s' => ⟨hm, h.roomy, rfl⟩
  rw [tableSortSmallest, tableSortSmallest]
  refine rel_bind (rel_get_access hm (by omega) (rel_bind (rel_get_access hm (by omega) (rel_bind ?_))))
  refine rel_call (fun isLess s₁ => ?_) fun s' => hsame s'
  have hlt : (if isLess then root * 2 + 1 else root) < stop := by split <;> omega
  dsimp only
  refine rel_ite (fun hright => ?_) fun _ => rel_pure ⟨rfl, hlt, hsame s₁⟩
  refine rel_bind (rel_get_access hm (by omega) (rel_bind (rel_get_access hm (by omega) (rel_bind ?_))))
  refine rel_call (fun isRight s₂ => rel_pure ⟨rfl, ?_, hsame s₂⟩) fun s' => hsame s'
  split
  · exact hright
  · exact hlt

theorem rel_tableSortSiftDown (h : Alike A n (vs, s) (t, s)) (hn : n ≤ maxArrayLen) {fuel root stop : Nat}
    (hstop : stop ≤ n) :
    rel (tableSortSiftDown (vecSortAccess : TableSortAccess (List Val) σ ε Val) host fuel root stop)
      (tableSortSiftDown (scratchTableSortAccess A tableError) host fuel root stop)
      (fun _ x _ y => Alike A n x y) (Alike A n) (vs, s) (t, s) := by
  induction fuel generalizing root vs t s with
  | zero => exact trivial
  | succ fuel ih =>
    rw [tableSortSiftDown, tableSortSiftDown]
    refine rel_bind (rel_call (fun _ s₁ => ?_) fun s' => ⟨h.mirrors, h.roomy, rfl⟩)
    have h₁ : Alike A n (vs, s₁) (t, s₁) := ⟨h.mirrors, h.roomy, rfl⟩
    refine rel_ite (fun _ => rel_pure h₁) fun hleft => ?_
    refine rel_bind (rel_mono_ok (rel_tableSortSmallest h₁ (Nat.lt_of_not_le hleft) hstop) ?_)
    rintro r ⟨vs₂, s₂⟩ _ ⟨t₂, _⟩ ⟨rfl, hr, h₂⟩
    obtain rfl : s₂ = _ := h₂.state
    refine rel_ite (fun _ => rel_pure h₂) fun hne => ?_
    refine rel_bind (rel_mono_ok (rel_tableSortSwap h₂ hn (by omega) (by omega)) ?_)
    rintro _ ⟨vs₃, s₃⟩ _ ⟨t₃, _⟩ ⟨h₃, -⟩
    obtain rfl : s₃ = _ := h₃.state
    exact ih h₃

theorem rel_tableSortHeapify (h : Alike A n (vs, s) (t, s)) (hn : n ≤ maxArrayLen) (k : Nat) :
    rel (tableSortHeapify (vecSortAccess : TableSortAccess (List Val) σ ε Val) host n k)
      (tableSortHeapify (scratchTableSortAccess A tableError) host n k)
      (fun _ x _ y => Alike A n x y) (Alike A n) (vs, s) (t, s) := by
  induction k generalizing vs t s with
  | zero => exact rel_pure h
  | succ k ih =>
    rw [tableSortHeapify, tableSortHeapify]
    refine rel_bind (rel_mono_ok (rel_tableSortSiftDown h hn le_rfl) ?_)
    rintro _ ⟨vs₁, s₁⟩ _ ⟨t₁, _⟩ h₁
    obtain rfl : s₁ = _ := h₁.state
    exact ih h₁

theorem rel_tableSortSortdown (h : Alike A n (vs, s) (t, s)) (hn : n ≤ maxArrayLen) {k : Nat} (hk : k ≤ n - 1) :
    rel (tableSortSortdown (vecSortAccess : TableSortAccess (List Val) σ ε Val) host k)
      (tableSortSortdown (scratchTableSortAccess A tableError) host k)
      (fun _ x _ y => Alike A n x y) (Alike A n) (vs, s) (t, s) := by
  induction k generalizing vs t s with
  | zero => exact rel_pure h
  | succ k ih =>
    rw [tableSortSortdown, tableSortSortdown]
    refine rel_bind (rel_call (fun _ s₁ => ?_) fun s' => ⟨h.mirrors, h.roomy, rfl⟩)
    have h₁ : Alike A n (vs, s₁) (t, s₁) := ⟨h.mirrors, h.roomy, rfl⟩
    refine rel_bind (rel_mono_ok (rel_tableSortSwap h₁ hn (by omega) (by omega)) ?_)
    rintro _ ⟨vs₂, s₂⟩ _ ⟨t₂, _⟩ ⟨h₂, -⟩
    obtain rfl : s₂ = _ := h₂.state
    refine rel_bind (rel_mono_ok (rel_tableSortSiftDown h₂ hn (by omega)) ?_)
    rintro _ ⟨vs₃, s₃⟩ _ ⟨t₃, _⟩ h₃
    obtain rfl : s₃ = _ := h₃.state
    exact ih h₃ (by omega)

theorem rel_tableSortReverse (h : Alike A n (vs, s) (t, s)) (hn : n ≤ maxArrayLen) {left : Nat}
    (hleft : left ≤ n / 2) :
    rel (tableSortReverse (vecSortAccess : TableSortAccess (List Val) σ ε Val) host n left)
      (tableSortReverse (scratchTableSortAccess A tableError) host n left)
      (fun _ x _ y => Alike A n x y) (Alike A n) (vs, s) (t, s) := by
  induction left generalizing vs t s with
  | zero => exact rel_pure h
  | succ left ih =>
    rw [tableSortReverse, tableSortReverse]
    refine rel_bind (rel_call (fun _ s₁ => ?_) fun s' => ⟨h.mirrors, h.roomy, rfl⟩)
    have h₁ : Alike A n (vs, s₁) (t, s₁) := ⟨h.mirrors, h.roomy, rfl⟩
    refine rel_bind (rel_mono_ok (rel_tableSortSwap h₁ hn (by omega) (by omega)) ?_)
    rintro _ ⟨vs₂, s₂⟩ _ ⟨t₂, _⟩ ⟨h₂, -⟩
    obtain rfl : s₂ = _ := h₂.state
    exact ih h₂ (by omega)

/-- The sorts of a vector and of a table with its values call the same, and end with the same values. -/
theorem rel_tableSortHeap (h : Alike A n (vs, s) (t, s)) (hn : n ≤ maxArrayLen) :
    rel (tableSortHeap (vecSortAccess : TableSortAccess (List Val) σ ε Val) host n)
      (tableSortHeap (scratchTableSortAccess A tableError) host n)
      (fun _ x _ y => Alike A n x y) (Alike A n) (vs, s) (t, s) := by
  rw [tableSortHeap, tableSortHeap]
  refine rel_bind (rel_mono_ok (rel_tableSortHeapify h hn _) ?_)
  rintro _ ⟨vs₁, s₁⟩ _ ⟨t₁, _⟩ h₁
  obtain rfl : s₁ = _ := h₁.state
  refine rel_bind (rel_mono_ok (rel_tableSortSortdown h₁ hn le_rfl) ?_)
  rintro _ ⟨vs₂, s₂⟩ _ ⟨t₂, _⟩ h₂
  obtain rfl : s₂ = _ := h₂.state
  exact rel_tableSortReverse h₂ hn le_rfl

end Scratch

/-! ## The copy -/

section Raw

variable {A : Allocator} {t t' : Table}

/-- The copy has the values of the keys up to the border. -/
theorem getArray_spec (h : t.Ok) {r : Except TableError (List Val)} (hr : getArray A t = some r) :
    r = .error .growthFailed ∨ r = .ok (t.flat.arr.take t.arrayLen) := by
  rw [getArray] at hr
  split at hr
  · exact .inl (Option.some.inj hr).symm
  split at hr
  · rename_i hwindow
    refine .inr ((Option.some.inj hr).symm.trans (congrArg _ ?_))
    have hw := h.window.window_le
    have hlen : t.arrayLen ≤ t.vlen := by
      rw [Table.arrayLen_flat h.window, ← Table.flat_arr_length (t := t)]
      exact Contents.border_isBorder.le
    obtain ⟨below, hbelow⟩ : ∃ below, min t.base t.arrayLen = below := ⟨_, rfl⟩
    rw [hbelow] at hwindow ⊢
    refine List.ext_getElem? fun i => ?_
    by_cases hi : i < t.arrayLen
    · rw [List.getElem?_take, if_pos hi, Table.flat_arr_getElem?, if_pos (by omega), slotValue]
      by_cases hb : i < below
      · rw [List.getElem?_append_left (by rw [List.length_replicate]; exact hb), List.getElem?_replicate,
          if_pos hb, if_neg (by omega)]
      · have hbase : below = t.base := by omega
        rw [List.getElem?_append_right (by rw [List.length_replicate]; omega), List.length_replicate,
          List.getElem?_take, if_pos (by omega), if_pos (by omega), hbase, List.getElem?_eq_getElem (by omega)]
        rfl
    · rw [List.getElem?_eq_none, List.getElem?_eq_none]
      · rw [List.length_take]
        omega
      · rw [List.length_append, List.length_replicate, List.length_take]
        omega
  · cases hr

/-- The values of the copy are those of the keys from one on. -/
theorem place_getArray (h : t.Ok) {i : Nat} (hi : i < t.arrayLen) :
    place .nil (t.flat.arr.take t.arrayLen) i = t.get (Val.ofNat (i + 1)) := by
  have hlen : t.arrayLen ≤ t.vlen := by
    rw [Table.arrayLen_flat h.window, ← Table.flat_arr_length (t := t)]
    exact Contents.border_isBorder.le
  rw [Table.get_ofNat h (by omega), place, List.getD_eq_getElem?_getD, List.getD_eq_getElem?_getD,
    List.getElem?_take, if_pos hi]

/-- What was written is there, and every other key has what it had. -/
theorem setArray_spec {vs : List Val} {written : Nat} (h : t.Ok) (hmax : written + vs.length ≤ maxArrayLen)
    (hr : setArray A t written vs = some (.ok (), t')) :
    t'.Ok ∧ (∀ i < vs.length, t'.get (Val.ofNat (written + i + 1)) = place .nil vs i) ∧
      ∀ k, (∀ i < vs.length, (Val.ofNat (written + i + 1)).eq k = false) → t'.get k = t.get k := by
  have h53 : maxArrayLen + 1 ≤ 2 ^ 53 := by decide
  induction vs generalizing t written with
  | nil =>
    obtain ⟨⟩ := hr
    exact ⟨h, fun i hi => absurd hi (Nat.not_lt_zero i), fun _ _ => rfl⟩
  | cons v vs ih =>
    rw [List.length_cons] at hmax
    obtain ⟨⟨r, t₁⟩, hins, hr⟩ := Option.bind_eq_some_iff.1 hr
    cases r with
    | error e => cases hr
    | ok _ =>
      obtain ⟨hok₁, hget₁⟩ := Table.get_insert h hins
      obtain ⟨hok, hvalues, hothers⟩ := ih hok₁ (by omega) hr
      refine ⟨hok, fun i hi => ?_, fun k hk => ?_⟩
      · cases i with
        | zero =>
          -- The value written first is not written again.
          rw [hothers, hget₁, if_pos ((eq_ofNat (by omega) (by omega)).2 rfl)]
          · rfl
          · intro i hi
            rw [← Bool.not_eq_true, eq_ofNat (by omega) (by omega)]
            omega
        | succ i =>
          rw [List.length_cons] at hi
          have hkey : written + (i + 1) + 1 = written + 1 + i + 1 := by omega
          rw [hkey]
          exact hvalues i (by omega)
      · rw [hothers, hget₁, if_neg (by rw [hk 0 (Nat.succ_pos _)]; exact Bool.false_ne_true)]
        intro i hi
        have hkey := hk (i + 1) (Nat.succ_lt_succ hi)
        have heq : written + (i + 1) + 1 = written + 1 + i + 1 := by omega
        rwa [heq] at hkey

/-! ## The sort of a copy -/

variable {vm : SortVm σ ε} {s s₀ : σ} {vs : List Val}

theorem wlp_callVm {f : σ → Except ε β × σ} {Q : β → σ → Prop} {E : ε → σ → Prop}
    (hok : ∀ b s', f s = (.ok b, s') → Q b s') (herr : ∀ e s', f s = (.error e, s') → E e s') :
    wlp (callVm f) Q E s := by
  rw [wlp, callVm]
  rcases hf : f s with ⟨e | b, s'⟩
  · exact herr e s' hf
  · exact hok b s' hf

/-- Sorting a copy gives what sorting the vector gives. -/
theorem wlp_tableSortValues {le : Val → Val → Prop} [Std.Refl le] [IsTrans Val le] {I : σ → Prop}
    {F : ε → σ → Prop} (h : Answers vm.host I F (· ∈ vs) le) (hI : I s) :
    wlp (tableSortValues vm vs) (fun vs' s' => I s' ∧ vs'.Perm vs ∧ vs'.Pairwise le) F s := by
  have hsort := wp_tableSortHeap h hI
  rw [wp] at hsort
  rw [tableSortValues, wlp_bind, wlp, withLocal]
  cases hrun : tableSortHeap vecSortAccess vm.host vs.length (vs, s) with
  | ok u x =>
    rw [hrun] at hsort
    exact hsort
  | fail e x =>
    rw [hrun] at hsort
    exact hsort.1
  | panic => exact trivial
  | timeout => exact trivial

/-- The answers that the calls give one after the other. -/
theorem answers_calls {S : Val → Prop} {le : Val → Val → Prop}
    (h : ∀ s₁ s₂ a b r, Calls vm s₀ s₁ → S a → S b → tableSortLess vm a b s₁ = (.ok r, s₂) → if r then le a b else le b a) :
    Answers vm.host (Calls vm s₀) (CallFailed vm s₀) S le where
  poll _ _ hs hp := hs.poll hp
  poll_error _ _ _ hs hp := .poll hs hp
  less a b s r s' ha hb hs hl := ⟨hs.less hl, h s s' a b r hs ha hb hl⟩
  less_error _ _ _ _ _ _ _ hs hl := .less hs hl

/-- After calls, values were put back in the table that was then in the slot. -/
def Wrote (vm : SortVm σ ε) (A : Allocator) (vs : List Val) (r : Except TableError Unit) (s s' : σ) : Prop :=
  ∃ s₁ t₁ t', Calls vm s s₁ ∧ vm.table s₁ = some t₁ ∧ setArray A t₁ 0 vs = some (r, t') ∧ s' = vm.setTable t' s₁

theorem wlp_writeBack (hs : Calls vm s₀ s) :
    wlp (writeBack vm A vs) (fun _ s' => Wrote vm A vs (.ok ()) s₀ s')
      (fun e s' => Calls vm s₀ s' ∨ ∃ f, e = vm.tableError f ∧ Wrote vm A vs (.error f) s₀ s') s := by
  rw [writeBack, wlp_bind, wlp_get]
  cases ht : vm.table s with
  | none =>
    simp only [ht, wlp_fail]
    exact .inl hs
  | some t =>
    simp only [ht, wlp_bind, wlp_modify]
    rw [wlp_demand]
    rintro ⟨r, t'⟩ hset
    rw [wlp_liftExcept]
    cases r with
    | ok _ => exact ⟨fun _ _ => ⟨s, t, t', hs, ht, hset, rfl⟩, nofun⟩
    | error f =>
      refine ⟨nofun, fun e he => .inr ⟨f, ?_, s, t, t', hs, ht, hset, rfl⟩⟩
      exact (Except.error.inj he).symm

/-- How the sort of a table fails: with the failure of a call, with one of its own before it writes,
    or because the table refused a value that was being put back. -/
inductive SortFailed (vm : SortVm σ ε) (A : Allocator) (s : σ) (e : ε) (s' : σ) : Prop
  | call (h : CallFailed vm s e s')
  | own (h : Calls vm s s')
  | refused (vs : List Val) (f : TableError) (he : e = vm.tableError f) (h : Wrote vm A vs (.error f) s s')

/-- The sort of a table puts back the values of its sequence, in order. -/
theorem wlp_tableSort {le : Val → Val → Prop} [Std.Refl le] [IsTrans Val le]
    (hok : ∀ t, vm.table s = some t → t.Ok)
    (h : ∀ t, vm.table s = some t → ∀ s₁ s₂ a b r, Calls vm s s₁ → a ∈ t.flat.arr.take t.arrayLen →
      b ∈ t.flat.arr.take t.arrayLen → tableSortLess vm a b s₁ = (.ok r, s₂) → if r then le a b else le b a) :
    wlp (tableSort vm A)
      (fun n s' => ∃ t, vm.table s = some t ∧ t.arrayLen = n ∧
        (n = 0 ∧ Calls vm s s' ∨ ∃ vs, vs.Perm (t.flat.arr.take n) ∧ vs.Pairwise le ∧ Wrote vm A vs (.ok ()) s s'))
      (SortFailed vm A s) s := by
  rw [tableSort, wlp_bind, wlp_get]
  cases ht : vm.table s with
  | none =>
    simp only [ht, wlp_fail]
    exact .own (.refl s)
  | some t =>
    have htok := hok t ht
    have hans := answers_calls (h t ht)
    have hlen : (t.flat.arr.take t.arrayLen).length = t.arrayLen := by
      rw [List.length_take, Nat.min_eq_left]
      rw [Table.arrayLen_flat htok.window]
      exact Contents.border_isBorder.le
    simp only [ht, checkedTableSortLen, wlp_bind, wlp_get]
    refine wlp_ite (fun _ => ?_) fun _ => ?_
    · rw [wlp_fail]
      exact .own (.refl s)
    simp only [wlp_pure]
    rw [wlp_demand]
    intro r hr
    rw [wlp_liftExcept]
    refine ⟨fun vs hvs => ?_, fun _ _ => .own (.refl s)⟩
    obtain rfl : vs = t.flat.arr.take t.arrayLen := by
      rcases getArray_spec htok hr with rfl | rfl
      · cases hvs
      · exact (Except.ok.inj hvs).symm
    refine wlp_callVm (fun _ s₁ hrun => ?_) fun _ _ hrun => .call (.charge (.refl s) hrun)
    have hs₁ : Calls vm s s₁ := (Calls.refl s).charge hrun
    -- What is left once the room has been made.
    have hrest : ∀ s₃, Calls vm s s₃ → wlp (do
        let values ← tableSortValues vm (t.flat.arr.take t.arrayLen)
        writeBack vm A values
        return t.arrayLen)
        (fun n s' => ∃ t', some t = some t' ∧ t'.arrayLen = n ∧ (n = 0 ∧ Calls vm s s' ∨
          ∃ vs, vs.Perm (t'.flat.arr.take n) ∧ vs.Pairwise le ∧ Wrote vm A vs (.ok ()) s s'))
        (SortFailed vm A s) s₃ := by
      intro s₃ hs₃
      rw [wlp_bind]
      refine wlp_mono (wlp_tableSortValues hans hs₃) ?_ fun _ _ hF => .call hF
      rintro vs s₄ ⟨hs₄, hperm, hsorted⟩
      rw [wlp_bind]
      refine wlp_mono (wlp_writeBack hs₄) (fun _ s₅ hwrote => ?_) fun e s₅ he => ?_
      · exact ⟨t, rfl, rfl, .inr ⟨vs, hperm, hsorted, hwrote⟩⟩
      · rcases he with hs₅ | ⟨f, he, hwrote⟩
        · exact .own hs₅
        · exact .refused vs f he hwrote
    refine wlp_ite (fun hempty => ?_) fun _ => ?_
    · have hzero : t.arrayLen = 0 := by rw [← hlen, List.isEmpty_iff.1 hempty]; rfl
      exact ⟨t, rfl, hzero, .inl ⟨rfl, hs₁⟩⟩
    · refine wlp_ite (fun _ => ?_) fun _ => hrest s₁ hs₁
      simp only [wlp_bind]
      refine wlp_callVm (fun _ s₂ hrun => ?_) fun _ _ hrun => .call (.reserve hs₁ hrun)
      refine wlp_callVm (fun _ s₃ hrun' => ?_) fun _ _ hrun' => .call (.reserve (hs₁.reserve hrun) hrun')
      have := hrest s₃ ((hs₁.reserve hrun).reserve hrun')
      simpa only [wlp_bind] using this

end Raw

/-! ## The two paths -/

/-- A host that records what the comparator is asked. -/
def SortHost.logged (host : SortHost σ ε α) : SortHost (σ × List (α × α)) ε α where
  pollInterrupt s :=
    let r := host.pollInterrupt s.1
    (r.1, r.2, s.2)
  less a b s :=
    let r := host.less a b s.1
    (r.1, r.2, s.2 ++ [(a, b)])

/-- The values of the keys from one up to the length. -/
def sequence (t : Table) : List Val := (List.range t.arrayLen).map fun i => t.get (Val.ofNat (i + 1))

theorem sequence_eq {t : Table} (h : t.Ok) : sequence t = t.flat.arr.take t.arrayLen := by
  have hlen : t.arrayLen ≤ t.flat.arr.length := by
    rw [Table.arrayLen_flat h.window]
    exact Contents.border_isBorder.le
  refine List.ext_getElem (by rw [sequence, List.length_map, List.length_range, List.length_take, Nat.min_eq_left hlen])
    fun i hi hi' => ?_
  have hlt : i < t.arrayLen := by rwa [sequence, List.length_map, List.length_range] at hi
  simp only [sequence, List.getElem_map, List.getElem_range]
  rw [← place_getArray h hlt, place_of_lt _ hi']

/-- A new table that is filled has the values. -/
theorem mirrors_setArray {A : Allocator} {vs : List Val} {t : Table} (hmax : vs.length ≤ maxArrayLen)
    (hfill : setArray A Table.empty 0 vs = some (.ok (), t)) : Mirrors vs.length vs t := by
  have h53 : maxArrayLen + 1 ≤ 2 ^ 53 := by decide
  obtain ⟨hok, hvalues, hothers⟩ := setArray_spec Table.empty_ok (by omega) hfill
  refine ⟨hok, rfl, fun i hi => ?_, ?_⟩
  · rw [← hvalues i hi, Nat.zero_add]
  · rw [hothers _ fun i hi => ?_]
    · exact Table.get_empty _
    · rw [← Bool.not_eq_true, eq_ofNat (by omega) (by omega)]
      omega

/-- The two sorts of the values of a list ask the same and end alike, with the values in some order. -/
theorem tableSortHeap_scratch (host : SortHost σ ε Val) {A : Allocator} {tableError : TableError → ε} {vs : List Val}
    {t : Table} {n : Nat} (h : Mirrors n vs t) (hn : n ≤ maxArrayLen) (hroom : Roomy A vs) (s : σ) :
    ∃ vs' t' s', vs'.Perm vs ∧ (∀ i < n, t'.get (Val.ofNat (i + 1)) = place .nil vs' i) ∧
      (tableSortHeap vecSortAccess host n (vs, s) = .ok () (vs', s') ∧
          tableSortHeap (scratchTableSortAccess A tableError) host n (t, s) = .ok () (t', s') ∨
        ∃ e, tableSortHeap vecSortAccess host n (vs, s) = .fail e (vs', s') ∧
          tableSortHeap (scratchTableSortAccess A tableError) host n (t, s) = .fail e (t', s')) := by
  obtain ⟨vs', s', hperm, hrun⟩ := tableSortHeap_perm host vs s
  have hrel : rel (tableSortHeap vecSortAccess host n) (tableSortHeap (scratchTableSortAccess A tableError) host n)
      (fun _ x _ y => Alike A n x y) (Alike A n) (vs, s) (t, s) := rel_tableSortHeap ⟨h, hroom, rfl⟩ hn
  rw [h.length_eq] at hrun
  rw [rel] at hrel
  rcases hrun with hrun | ⟨e, hrun⟩
  · rw [hrun] at hrel
    cases hscratch : tableSortHeap (scratchTableSortAccess A tableError) host n (t, s) with
    | ok u x =>
      rw [hscratch] at hrel
      obtain ⟨hm, -, rfl⟩ := hrel
      exact ⟨vs', x.1, x.2, hperm, hm.get, .inl ⟨hrun, rfl⟩⟩
    | fail e x => rw [hscratch] at hrel; exact hrel.elim
    | panic => rw [hscratch] at hrel; exact hrel.elim
    | timeout => rw [hscratch] at hrel; exact hrel.elim
  · rw [hrun] at hrel
    cases hscratch : tableSortHeap (scratchTableSortAccess A tableError) host n (t, s) with
    | fail e' x =>
      rw [hscratch] at hrel
      obtain ⟨rfl, hm, -, rfl⟩ := hrel
      exact ⟨vs', x.1, x.2, hperm, hm.get, .inr ⟨e, hrun, rfl⟩⟩
    | ok u x => rw [hscratch] at hrel; exact hrel.elim
    | panic => rw [hscratch] at hrel; exact hrel.elim
    | timeout => rw [hscratch] at hrel; exact hrel.elim

/-- Values put back after the calls: in the table that was then in the slot, at the keys from one on. -/
def PutBack (vm : SortVm σ ε) (vs : List Val) (s s' : σ) : Prop :=
  ∃ s₁ t₁ t', Calls vm s s₁ ∧ vm.table s₁ = some t₁ ∧ s' = vm.setTable t' s₁ ∧
    (∀ i < vs.length, t'.get (Val.ofNat (i + 1)) = place .nil vs i) ∧
      ∀ k, (∀ i < vs.length, (Val.ofNat (i + 1)).eq k = false) → t'.get k = t₁.get k

theorem Wrote.putBack {vm : SortVm σ ε} {A : Allocator} {vs : List Val} {s s' : σ}
    (hok : ∀ s t, vm.table s = some t → t.Ok) (hmax : vs.length ≤ maxArrayLen) (h : Wrote vm A vs (.ok ()) s s') :
    PutBack vm vs s s' := by
  obtain ⟨s₁, t₁, t', hcalls, ht, hset, rfl⟩ := h
  obtain ⟨-, hvalues, hothers⟩ := setArray_spec (hok s₁ t₁ ht) (by omega) hset
  simp only [Nat.zero_add] at hvalues hothers
  exact ⟨s₁, t₁, t', hcalls, ht, rfl, hvalues, hothers⟩

/-- What may come before what for every order that the comparator decides. -/
def AllBefore (vm : SortVm σ ε) (s : σ) (vs : List Val) (a b : Val) : Prop :=
  ∀ lt, vm.host.Orders (Calls vm s) vs lt → Before (· ∈ vs) lt a b

instance (vm : SortVm σ ε) (s : σ) (vs : List Val) : Std.Refl (AllBefore vm s vs) where
  refl a lt h := by
    have := h.order
    exact before_refl.refl a

instance (vm : SortVm σ ε) (s : σ) (vs : List Val) : IsTrans Val (AllBefore vm s vs) where
  trans a b c hab hbc lt h := by
    have := h.order
    exact before_trans.trans a b c (hab lt h) (hbc lt h)

/-- How the sort of a table ends: the values are put back in some order, which is right for a comparator
    that decides a strict weak order, or the state is what the calls left of it, or the table refused
    a value that was being put back. -/
theorem wlp_tableSort_all {vm : SortVm σ ε} (A : Allocator) (s : σ) (hok : ∀ s t, vm.table s = some t → t.Ok) :
    wlp (tableSort vm A)
      (fun n s' => ∃ t, vm.table s = some t ∧ t.arrayLen = n ∧
        (n = 0 ∧ Calls vm s s' ∨ ∃ vs, vs.Perm (sequence t) ∧
          (∀ lt, vm.host.Orders (Calls vm s) (sequence t) lt → vs.Pairwise fun a b => ¬lt b a) ∧ PutBack vm vs s s'))
      (SortFailed vm A s) s := by
  have hall : ∀ t, vm.table s = some t → ∀ s₁ s₂ a b r, Calls vm s s₁ → a ∈ sequence t → b ∈ sequence t →
      tableSortLess vm a b s₁ = (.ok r, s₂) →
        if r then AllBefore vm s (sequence t) a b else AllBefore vm s (sequence t) b a := by
    intro t _ s₁ s₂ a b r hs ha hb hl
    have hbefore := fun lt (h : vm.host.Orders (Calls vm s) (sequence t) lt) => h.before hs ha hb hl
    cases r with
    | true => exact hbefore
    | false => exact hbefore
  cases ht : vm.table s with
  | none =>
    refine wlp_mono (@wlp_tableSort _ _ _ _ _ (AllBefore vm s []) _ _ (fun t ht' => ?_) fun t ht' => ?_) ?_
      fun _ _ h => h
    · rw [ht] at ht'; cases ht'
    · rw [ht] at ht'; cases ht'
    · rintro n s' ⟨t, ht', -⟩
      rw [ht] at ht'
      cases ht'
  | some t =>
    have htok := hok s t ht
    have hseq := sequence_eq htok
    refine wlp_mono (@wlp_tableSort _ _ _ _ _ (AllBefore vm s (sequence t)) _ _ (hok s) fun t' ht' => ?_) ?_
      fun _ _ h => h
    · obtain rfl : t = t' := Option.some.inj (ht.symm.trans ht')
      rw [← hseq]
      exact hall t ht
    · rintro n s' ⟨t', ht', rfl, hcase⟩
      obtain rfl : t = t' := Option.some.inj (ht.symm.trans ht')
      refine ⟨t, rfl, rfl, hcase.imp_right ?_⟩
      rintro ⟨vs, hperm, hsorted, hwrote⟩
      rw [← hseq] at hperm
      refine ⟨vs, hperm, fun lt h => pairwise_not_lt hperm (hsorted.imp fun hab => hab lt h), hwrote.putBack hok ?_⟩
      rw [hperm.length_eq, hseq, List.length_take]
      exact (Nat.min_le_right _ _).trans (Table.ok_iff.1 htok).2.len_le

/-- Whatever the comparator answers, the sort of the values of a list ends, with the values in some order,
    which is right where the comparator decides a strict weak order; the sort of a table without sequence
    metamethods puts back such values, and when a call fails it has written nothing; and the sort of a
    table of the sort's own asks the same and ends alike, unless that table has to grow in the middle of an
    exchange and is refused. -/
theorem sort_sound (vm : SortVm σ ε) (A : Allocator) (vs : List Val) (s : σ) :
    (∃ vs' s', vs'.Perm vs ∧ (tableSortHeap vecSortAccess vm.host vs.length (vs, s) = .ok () (vs', s') ∧
          (∀ lt, vm.host.Orders (vm.host.Reaches s) vs lt → vs'.Pairwise fun a b => ¬lt b a) ∨
        ∃ e, tableSortHeap vecSortAccess vm.host vs.length (vs, s) = .fail e (vs', s'))) ∧
      ((∀ s t, vm.table s = some t → t.Ok) →
        wlp (tableSort vm A)
          (fun n s' => ∃ t, vm.table s = some t ∧ t.arrayLen = n ∧
            (n = 0 ∧ Calls vm s s' ∨ ∃ vs, vs.Perm (sequence t) ∧
              (∀ lt, vm.host.Orders (Calls vm s) (sequence t) lt → vs.Pairwise fun a b => ¬lt b a) ∧
                PutBack vm vs s s'))
          (SortFailed vm A s) s) ∧
      (∀ n t, tableSortHeap (scratchTableSortAccess A vm.tableError) vm.host n (t, s) ≠ .timeout) ∧
      ∀ (B : Allocator) t, setArray B Table.empty 0 vs = some (.ok (), t) → vs.length < TABLE_SORT_MAX_LEN →
        Roomy A vs → ∃ vs' t' s' log, vs'.Perm vs ∧
          (∀ i < vs.length, t'.get (Val.ofNat (i + 1)) = place .nil vs' i) ∧
          (tableSortHeap vecSortAccess vm.host.logged vs.length (vs, s, []) = .ok () (vs', s', log) ∧
              tableSortHeap (scratchTableSortAccess A vm.tableError) vm.host.logged vs.length (t, s, []) =
                .ok () (t', s', log) ∨
            ∃ e, tableSortHeap vecSortAccess vm.host.logged vs.length (vs, s, []) = .fail e (vs', s', log) ∧
              tableSortHeap (scratchTableSortAccess A vm.tableError) vm.host.logged vs.length (t, s, []) =
                .fail e (t', s', log)) := by
  refine ⟨?_, wlp_tableSort_all A s, fun n t => settles_tableSortHeap ends_scratchTableSortAccess n _, ?_⟩
  · obtain ⟨vs', s', hperm, hrun⟩ := tableSortHeap_perm vm.host vs s
    exact ⟨vs', s', hperm, hrun.imp_left fun hrun => ⟨hrun, fun lt h => tableSortHeap_sorted h hrun⟩⟩
  · intro B t hfill hlen hroom
    have hmax : vs.length ≤ maxArrayLen := by
      have : TABLE_SORT_MAX_LEN ≤ maxArrayLen := by decide
      omega
    obtain ⟨vs', t', ⟨s', log⟩, h⟩ :=
      tableSortHeap_scratch vm.host.logged (mirrors_setArray hmax hfill) hmax hroom (s, [])
    exact ⟨vs', t', s', log, h⟩

/-- An allocator that refuses everything. -/
def refusing : Allocator := ⟨fun _ _ _ => none, nofun⟩

/-- A comparator that always answers that the first is less. -/
def alwaysLess : SortHost Unit TableError Val := ⟨fun s => (.ok (), s), fun _ _ s => (.ok true, s)⟩

/-- In a table that has to grow to take the value that is exchanged with nil, a value is lost. -/
theorem scratch_loses :
    ∃ t t', setArray .exact Table.empty 0 [Val.ofNat 1, Val.ofNat 2, Val.ofNat 3, .nil] = some (.ok (), t) ∧
      tableSortHeap (scratchTableSortAccess refusing id) alwaysLess 4 (t, ()) = .fail .growthFailed (t', ()) ∧
        ¬((List.range 4).map fun i => t'.get (Val.ofNat (i + 1))).Perm
            [Val.ofNat 1, Val.ofNat 2, Val.ofNat 3, .nil] :=
  ⟨{ Table.empty with array := [Val.ofNat 1, Val.ofNat 2, Val.ofNat 3], cap := 3, vlen := 3, arrayLive := 3 },
    { Table.empty with array := [Val.ofNat 1, .nil, Val.ofNat 3], cap := 3, vlen := 3, arrayLive := 2 },
    by decide +kernel, rfl, by decide +kernel⟩

end Dellingr.TableSort
