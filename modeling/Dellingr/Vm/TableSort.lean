import Dellingr.Lib.Binary64Bits
import Dellingr.Lib.HeapOrder
import Dellingr.Lib.Relational
import Dellingr.Vm.Table.Access

/-!
# Sorting

`table.sort` sorts in place with a heap (`tableSortHeap`): the values are put in a heap with the
least first, which is taken out to the end again and again, and what is then in descending order is
reversed. The comparator is asked in between. It may be inconsistent, change the state and fail
(`SortHost`), and what the sort calls sees nothing of the values.

The values are reached through an accessor. A table without sequence metamethods is copied to a
vector (`vecSortAccess`), which is written back at the end (`tableSort`); for any other table they
are in a table of the sort's own (`scratchTableSortAccess`).

* The values are only exchanged, and there are enough rounds (`settles_tableSortHeap`), so
  whatever the comparator does the sort ends with a permutation of them (`wp_tableSortHeap`).
* Where the comparator decides a total preorder the values end in order.
-/

namespace Dellingr.TableSort

open Effect HeapOrder

variable {σ τ ε α β : Type}

/-! ## The heap sort -/

/-- What a sort calls. Each call ends, with an answer or with an error. -/
structure SortHost (σ ε α : Type) where
  pollInterrupt : σ → Except ε Unit × σ
  less : α → α → σ → Except ε Bool × σ

/-- Call what does not see the values. -/
def call (f : σ → Except ε α × σ) : Effect (τ × σ) ε α := fun (t, s) =>
  match f s with
  | (.ok a, s') => .ok a (t, s')
  | (.error e, s') => .fail e (t, s')

/-- The values that are sorted, by their places. -/
structure TableSortAccess (τ σ ε α : Type) where
  get : Nat → Effect (τ × σ) ε α
  set : Nat → α → Effect (τ × σ) ε Unit

section

variable (access : TableSortAccess τ σ ε α) (host : SortHost σ ε α)

def tableSortSwap (a b : Nat) : Effect (τ × σ) ε Unit :=
  if a = b then return ()
  else do
    let aValue ← access.get a
    let bValue ← access.get b
    access.set a bValue
    access.set b aValue

/-- The place of the least value among a place, its left child and its right child, if that is
    before `stop`. -/
def tableSortSmallest (root left stop : Nat) : Effect (τ × σ) ε Nat := do
  let leftValue ← access.get left
  let smallestValue ← access.get root
  let isLess ← call (host.less leftValue smallestValue)
  let smallest := if isLess then left else root
  let right := left + 1
  if right < stop then do
    let rightValue ← access.get right
    let smallestValue ← access.get smallest
    let isLess ← call (host.less rightValue smallestValue)
    return if isLess then right else smallest
  else return smallest

/-- Move a value down the heap. The place is further down in each round. -/
def tableSortSiftDown : Nat → Nat → Nat → Effect (τ × σ) ε Unit
  | 0, _, _ => timeout
  | fuel + 1, root, stop => do
    call host.pollInterrupt
    let left := root * 2 + 1
    if stop ≤ left then return ()
    else do
      let smallest ← tableSortSmallest access host root left stop
      if smallest = root then return ()
      else do
        tableSortSwap access root smallest
        tableSortSiftDown fuel smallest stop

/-- Make a heap of the places from the last parent to the first. -/
def tableSortHeapify (n : Nat) : Nat → Effect (τ × σ) ε Unit
  | 0 => return ()
  | root + 1 => do
    tableSortSiftDown access host (n + 1) root n
    tableSortHeapify n root

/-- Take the first value of the heap to its end until one is left. -/
def tableSortSortdown : Nat → Effect (τ × σ) ε Unit
  | 0 => return ()
  | stop + 1 => do
    call host.pollInterrupt
    tableSortSwap access 0 (stop + 1)
    tableSortSiftDown access host (stop + 2) 0 (stop + 1)
    tableSortSortdown stop

/-- Reverse the values, the places that are left to exchange being counted down. -/
def tableSortReverse (n : Nat) : Nat → Effect (τ × σ) ε Unit
  | 0 => return ()
  | left + 1 => do
    let index := n / 2 - (left + 1)
    call host.pollInterrupt
    tableSortSwap access index (n - 1 - index)
    tableSortReverse n left

def tableSortHeap (n : Nat) : Effect (τ × σ) ε Unit := do
  tableSortHeapify access host n (n / 2)
  tableSortSortdown access host (n - 1)
  tableSortReverse access host n (n / 2)

end

/-! ## The accessors -/

/-- The values in a vector, which panics outside its bounds. -/
def vecSortAccess : TableSortAccess (List α) σ ε α where
  get index := do
    let s ← get
    demand s.1[index]?
  set index value := do
    let s ← get
    require (index < s.1.length)
    modify fun s => (s.1.set index value, s.2)

/-- The values in a table, from the key one on. -/
def scratchTableSortAccess (A : Allocator) (tableError : TableError → ε) : TableSortAccess Table σ ε Val where
  get index := do
    let s ← get
    return s.1.get (Val.ofNat (index + 1))
  set index value := do
    let s ← get
    let r ← demand (s.1.insert A (Val.ofNat (index + 1)) value)
    modify fun s => (r.2, s.2)
    liftExcept (r.1.mapError tableError)

/-! ## The sort of a table without sequence metamethods -/

/-- The values of the sequence of a table. The keys below the window have none. -/
def getArray (A : Allocator) (t : Table) : Option (Except TableError (List Val)) :=
  let len := t.arrayLen
  let below := min t.base len
  if 0 < len ∧ A.tryReserve 0 0 len = none then some (.error .growthFailed)
  else if len - below ≤ t.array.length then
    some (.ok (List.replicate below .nil ++ t.array.take (len - below)))
  else none

/-- Write values to the keys after `written` ones. -/
def setArray (A : Allocator) (t : Table) (written : Nat) : List Val → Option (Except TableError Unit × Table)
  | [] => some (.ok (), t)
  | v :: vs => do
    let o ← t.insert A (Val.ofNat (written + 1)) v
    andThen o fun _ t => setArray A t (written + 1) vs

def TABLE_SORT_MAX_LEN : Nat := 2 ^ 31 - 1

/-- What the sort of a table calls, and the table in its argument slot. -/
structure SortVm (σ ε : Type) where
  pollInterrupt : σ → Except ε Unit × σ
  /-- The call of the comparator, if there is one. -/
  comparator : Option (Val → Val → σ → Except ε Bool × σ)
  getString : σ → StringPtr → List UInt8
  comparisonError : Val → Val → σ → ε
  charge : Nat → σ → Except ε Unit × σ
  /-- Make room to keep so many values from being collected. -/
  reserveSortValues : Nat → σ → Except ε Unit × σ
  table : σ → Option Table
  setTable : Table → σ → σ
  typeError : σ → ε
  arrayTooBig : σ → ε
  tableError : TableError → ε

/-- Whether a number is less than another. -/
def numberLess (x y : F64) : Bool :=
  !x.isNan && !y.isNan && !(x.isZero && y.isZero) && decide (x.totalKey < y.totalKey)

section

variable (vm : SortVm σ ε)

/-- Ask the comparator, or compare numbers or strings. -/
def tableSortLess (a b : Val) (s : σ) : Except ε Bool × σ :=
  match vm.comparator with
  | some comparator => comparator a b s
  | none =>
    match a, b with
    | .num a, .num b => (.ok (numberLess a b), s)
    | .str a, .str b => (.ok (decide (vm.getString s a < vm.getString s b)), s)
    | a, b => (.error (vm.comparisonError a b s), s)

def SortVm.host : SortHost σ ε Val := ⟨vm.pollInterrupt, tableSortLess vm⟩

/-- Call what may change the state. -/
def callVm (f : σ → Except ε β × σ) : Effect σ ε β := fun s =>
  match f s with
  | (.ok b, s') => .ok b s'
  | (.error e, s') => .fail e s'

def checkedTableSortLen (len : Nat) : Effect σ ε Nat := do
  let s ← get
  if TABLE_SORT_MAX_LEN ≤ len then fail (vm.arrayTooBig s) else return len

/-- Put sorted values back. The table is looked up again. -/
def writeBack (A : Allocator) (values : List Val) : Effect σ ε Unit := do
  let s ← get
  match vm.table s with
  | none => fail (vm.typeError s)
  | some t => do
    let r ← demand (setArray A t 0 values)
    modify (vm.setTable r.2)
    liftExcept (r.1.mapError vm.tableError)

/-- Sort the values of a vector. -/
def tableSortValues (values : List Val) : Effect σ ε (List Val) := do
  let r ← withLocal values (tableSortHeap vecSortAccess vm.host values.length)
  return r.2

/-- Sort the sequence of the table. What is sorted is a copy. -/
def tableSort (A : Allocator) : Effect σ ε Nat := do
  let s ← get
  match vm.table s with
  | none => fail (vm.typeError s)
  | some t => do
    let n ← checkedTableSortLen vm t.arrayLen
    let r ← demand (getArray A t)
    let values ← liftExcept (r.mapError vm.tableError)
    callVm (vm.charge (max n 1))
    if values.isEmpty then return 0
    else do
      if vm.comparator.isSome then do
        callVm (vm.reserveSortValues values.length)
        callVm (vm.reserveSortValues values.length)
      let values ← tableSortValues vm values
      writeBack vm A values
      return n

/-- A state that calls have left, none of which failed. -/
inductive Calls : σ → σ → Prop
  | refl (s : σ) : Calls s s
  | poll {s s₁ s₂ : σ} : Calls s s₁ → vm.pollInterrupt s₁ = (.ok (), s₂) → Calls s s₂
  | less {s s₁ s₂ : σ} {a b : Val} {r : Bool} : Calls s s₁ → tableSortLess vm a b s₁ = (.ok r, s₂) → Calls s s₂
  | charge {s s₁ s₂ : σ} {n : Nat} : Calls s s₁ → vm.charge n s₁ = (.ok (), s₂) → Calls s s₂
  | reserve {s s₁ s₂ : σ} {n : Nat} : Calls s s₁ → vm.reserveSortValues n s₁ = (.ok (), s₂) → Calls s s₂

/-- The state that a call has left that failed after others. -/
inductive CallFailed : σ → ε → σ → Prop
  | poll {s s₁ s₂ : σ} {e : ε} : Calls vm s s₁ → vm.pollInterrupt s₁ = (.error e, s₂) → CallFailed s e s₂
  | less {s s₁ s₂ : σ} {a b : Val} {e : ε} :
    Calls vm s s₁ → tableSortLess vm a b s₁ = (.error e, s₂) → CallFailed s e s₂
  | charge {s s₁ s₂ : σ} {n : Nat} {e : ε} : Calls vm s s₁ → vm.charge n s₁ = (.error e, s₂) → CallFailed s e s₂
  | reserve {s s₁ s₂ : σ} {n : Nat} {e : ε} :
    Calls vm s s₁ → vm.reserveSortValues n s₁ = (.error e, s₂) → CallFailed s e s₂

end

/-! ## Enough rounds -/

section Settles

variable {access : TableSortAccess τ σ ε α} {host : SortHost σ ε α}

theorem settles_call {f : σ → Except ε β × σ} : Settles (call f : Effect (τ × σ) ε β) := by
  rintro ⟨t, s⟩
  rw [call]
  rcases f s with ⟨_ | _, _⟩ <;> rintro ⟨⟩

/-- An accessor each of whose calls ends. -/
structure TableSortAccess.Ends (access : TableSortAccess τ σ ε α) : Prop where
  get : ∀ index, Settles (access.get index)
  set : ∀ index value, Settles (access.set index value)

theorem settles_tableSortSwap (h : access.Ends) (a b : Nat) : Settles (tableSortSwap access a b) :=
  Settles.ite settles_pure
    ((h.get a).bind fun _ => (h.get b).bind fun _ => (h.set a _).bind fun _ => h.set b _)

/-- The least place is the place itself or one of its children. -/
theorem yields_tableSortSmallest (access : TableSortAccess τ σ ε α) (host : SortHost σ ε α) (root left stop : Nat) :
    Yields (tableSortSmallest access host root left stop) fun r => r = root ∨ r = left ∨ r = left + 1 := by
  refine yields_bind fun _ => yields_bind fun _ => yields_bind fun isLess => ?_
  have hpick : (if isLess then left else root) = root ∨ (if isLess then left else root) = left := by
    cases isLess
    · exact .inl rfl
    · exact .inr rfl
  dsimp only
  split
  · refine yields_bind fun _ => yields_bind fun _ => yields_bind fun isRight => yields_pure ?_
    cases isRight
    · exact hpick.imp_right .inl
    · exact .inr (.inr rfl)
  · exact yields_pure (hpick.imp_right .inl)

theorem settles_tableSortSmallest (h : access.Ends) (root left stop : Nat) :
    Settles (tableSortSmallest access host root left stop) := by
  refine (h.get left).bind fun _ => (h.get root).bind fun _ => settles_call.bind fun _ => ?_
  exact Settles.ite ((h.get _).bind fun _ => (h.get _).bind fun _ => settles_call.bind fun _ => settles_pure)
    settles_pure

/-- A sequence ends whose second part ends for what the first gives. -/
theorem settles_bind_of {m : Effect σ ε α} {f : α → Effect σ ε β} {Q : α → Prop} (h : Settles m) (hQ : Yields m Q)
    (hf : ∀ a, Q a → Settles (f a)) : Settles (m >>= f) := by
  intro s
  show Effect.bind m f s ≠ _
  rw [Effect.bind]
  cases hm : m s with
  | ok a s' => exact hf a (hQ s a s' hm) s'
  | fail e s' => rintro ⟨⟩
  | panic => rintro ⟨⟩
  | timeout => exact absurd hm (h s)

/-- The place goes down in each round. -/
theorem settles_tableSortSiftDown (h : access.Ends) {fuel root stop : Nat} (hfuel : stop < fuel + root)
    (hpos : 0 < fuel) : Settles (tableSortSiftDown access host fuel root stop) := by
  induction fuel generalizing root with
  | zero => omega
  | succ fuel ih =>
    refine settles_call.bind fun _ => ?_
    dsimp only
    split
    · exact settles_pure
    rename_i hleft
    refine settles_bind_of (settles_tableSortSmallest h _ _ _) (yields_tableSortSmallest _ _ _ _ _)
      fun smallest hsmallest => ?_
    split
    · exact settles_pure
    · exact (settles_tableSortSwap h _ _).bind fun _ => ih (by omega) (by omega)

theorem settles_tableSortHeapify (h : access.Ends) (n k : Nat) : Settles (tableSortHeapify access host n k) := by
  induction k with
  | zero => exact settles_pure
  | succ root ih => exact (settles_tableSortSiftDown h (by omega) (Nat.succ_pos n)).bind fun _ => ih

theorem settles_tableSortSortdown (h : access.Ends) (k : Nat) : Settles (tableSortSortdown access host k) := by
  induction k with
  | zero => exact settles_pure
  | succ stop ih =>
    exact settles_call.bind fun _ => (settles_tableSortSwap h _ _).bind fun _ =>
      (settles_tableSortSiftDown h (by omega) (Nat.succ_pos _)).bind fun _ => ih

theorem settles_tableSortReverse (h : access.Ends) (n k : Nat) : Settles (tableSortReverse access host n k) := by
  induction k with
  | zero => exact settles_pure
  | succ left ih =>
    exact settles_call.bind fun _ => (settles_tableSortSwap h _ _).bind fun _ => ih

/-- The sort ends, whatever the comparator answers. -/
theorem settles_tableSortHeap (h : access.Ends) (n : Nat) : Settles (tableSortHeap access host n) :=
  (settles_tableSortHeapify h _ _).bind fun _ => (settles_tableSortSortdown h _).bind fun _ =>
    settles_tableSortReverse h _ _

theorem ends_vecSortAccess : (vecSortAccess : TableSortAccess (List α) σ ε α).Ends where
  get _ := settles_get.bind fun _ => settles_demand
  set _ _ := settles_get.bind fun _ => settles_require.bind fun _ => settles_modify

theorem ends_scratchTableSortAccess {A : Allocator} {tableError : TableError → ε} :
    (scratchTableSortAccess A tableError : TableSortAccess Table σ ε Val).Ends where
  get _ := settles_get.bind fun _ => settles_pure
  set _ _ := settles_get.bind fun _ => settles_demand.bind fun r => settles_modify.bind fun _ => by
    cases r.1 with
    | ok a => exact settles_pure
    | error e => exact settles_fail

end Settles

/-! ## The vector -/

section Vec

variable [Inhabited α] {vs : List α} {s : σ} {a b : Nat}

theorem wp_vecSortAccess_get {Q : α → List α × σ → Prop} {E : ε → List α × σ → Prop} (h : a < vs.length) :
    wp ((vecSortAccess : TableSortAccess (List α) σ ε α).get a) Q E (vs, s) = Q (place default vs a) (vs, s) := by
  rw [vecSortAccess]
  simp only [wp_bind, wp_get]
  rw [wp_demand (List.getElem?_eq_getElem h), place_of_lt _ h]

/-- An exchange of two values. -/
theorem wp_vecSortAccess_swap {Q : Unit → List α × σ → Prop} {E : ε → List α × σ → Prop} (ha : a < vs.length)
    (hb : b < vs.length) :
    wp (tableSortSwap (vecSortAccess : TableSortAccess (List α) σ ε α) a b) Q E (vs, s) = Q () (swapAt vs a b, s) := by
  rw [tableSortSwap]
  by_cases hab : a = b
  · rw [if_pos hab, wp_pure, hab, swapAt_self]
  · rw [if_neg hab, wp_bind, wp_vecSortAccess_get ha, wp_bind, wp_vecSortAccess_get hb, vecSortAccess]
    have hb' : b < (vs.set a (place default vs b)).length := by rwa [List.length_set]
    simp only [wp_bind, wp_get, wp_modify]
    rw [wp_require ha, wp_require hb', swapAt_eq ha hb, place_of_lt _ ha, place_of_lt _ hb]

/-! ## What the comparator decides -/

theorem wp_call {f : σ → Except ε β × σ} {t : τ} {Q : β → τ × σ → Prop} {E : ε → τ × σ → Prop}
    (hok : ∀ b s', f s = (.ok b, s') → Q b (t, s')) (herr : ∀ e s', f s = (.error e, s') → E e (t, s')) :
    wp (call f) Q E (t, s) := by
  rw [wp, call]
  rcases hf : f s with ⟨e | b, s'⟩
  · exact herr e s' hf
  · exact hok b s' hf

/-- While `I` holds of the state, the answers for the values `S` say which may come before the
    other, and `F` holds of an error and the state it leaves. -/
structure Answers (host : SortHost σ ε α) (I : σ → Prop) (F : ε → σ → Prop) (S : α → Prop) (le : α → α → Prop) : Prop where
  poll : ∀ s s', I s → host.pollInterrupt s = (.ok (), s') → I s'
  poll_error : ∀ s s' e, I s → host.pollInterrupt s = (.error e, s') → F e s'
  less : ∀ a b s r s', S a → S b → I s → host.less a b s = (.ok r, s') →
    I s' ∧ if r then le a b else le b a
  less_error : ∀ a b s e s', S a → S b → I s → host.less a b s = (.error e, s') → F e s'

variable {host : SortHost σ ε α} {I : σ → Prop} {F : ε → σ → Prop} {vs₀ : List α} {le : α → α → Prop}

theorem place_mem (hperm : vs.Perm vs₀) (ha : a < vs.length) : place default vs a ∈ vs₀ := by
  rw [place_of_lt _ ha]
  exact hperm.mem_iff.1 (List.getElem_mem ha)

/-- The least among a place and its children may come before them. -/
theorem wp_tableSortSmallest [Std.Refl le] [IsTrans α le] (h : Answers host I F (· ∈ vs₀) le) (hI : I s)
    (hperm : vs.Perm vs₀) {root stop : Nat} (hleft : root * 2 + 1 < stop) (hstop : stop ≤ vs.length) :
    wp (tableSortSmallest vecSortAccess host root (root * 2 + 1) stop)
      (fun r x => x.1 = vs ∧ I x.2 ∧ le (place default vs r) (place default vs root) ∧
        (∀ c, Child root c → c < stop → le (place default vs r) (place default vs c)) ∧
          (r = root ∨ Child root r ∧ r < stop))
      (fun e x => F e x.2 ∧ x.1.Perm vs₀) (vs, s) := by
  have hrefl : ∀ x : α, le x x := Std.Refl.refl
  have htrans : ∀ {x y z : α}, le x y → le y z → le x z := fun {x y z} => IsTrans.trans x y z
  rw [tableSortSmallest, wp_bind, wp_vecSortAccess_get (by omega), wp_bind, wp_vecSortAccess_get (by omega), wp_bind]
  refine wp_call (fun isLess s₁ hless => ?_) fun e s' he =>
    ⟨h.less_error _ _ _ _ _ (place_mem hperm (by omega)) (place_mem hperm (by omega)) hI he, hperm⟩
  obtain ⟨hI₁, hle⟩ := h.less _ _ _ _ _ (place_mem hperm (by omega)) (place_mem hperm (by omega)) hI hless
  -- The lesser of the place and its left child.
  obtain ⟨smallest, hsmallest, hroot, hson, hcase⟩ : ∃ smallest, (if isLess then root * 2 + 1 else root) = smallest ∧
      le (place default vs smallest) (place default vs root) ∧
        le (place default vs smallest) (place default vs (root * 2 + 1)) ∧
          (smallest = root ∨ smallest = root * 2 + 1) := by
    refine ⟨_, rfl, ?_⟩
    cases isLess with
    | true => exact ⟨hle, hrefl _, .inr rfl⟩
    | false => exact ⟨hrefl _, hle, .inl rfl⟩
  dsimp only
  rw [hsmallest]
  refine wp_ite (fun hright => ?_) fun hright => ?_
  · rw [wp_bind, wp_vecSortAccess_get (by omega), wp_bind, wp_vecSortAccess_get (by omega), wp_bind]
    refine wp_call (fun isRight s₂ hless => ?_) fun e s' he =>
      ⟨h.less_error _ _ _ _ _ (place_mem hperm (by omega)) (place_mem hperm (by omega)) hI₁ he, hperm⟩
    obtain ⟨hI₂, hle⟩ := h.less _ _ _ _ _ (place_mem hperm (by omega)) (place_mem hperm (by omega)) hI₁ hless
    rw [wp_pure]
    cases isRight with
    | true =>
      refine ⟨rfl, hI₂, htrans hle hroot, ?_, .inr ⟨.inr rfl, hright⟩⟩
      rintro c (rfl | rfl) -
      · exact htrans hle hson
      · exact hrefl _
    | false =>
      refine ⟨rfl, hI₂, hroot, ?_, hcase.imp_right fun hs => ⟨.inl hs, hs ▸ hleft⟩⟩
      rintro c (rfl | rfl) -
      · exact hson
      · exact hle
  · rw [wp_pure]
    refine ⟨rfl, hI₁, hroot, ?_, hcase.imp_right fun hs => ⟨.inl hs, hs ▸ hleft⟩⟩
    rintro c (rfl | rfl) hc
    · exact hson
    · omega

/-- What a part of the sort leaves: the values rearranged before `stop`. -/
structure Sifted (I : σ → Prop) (vs₀ vs : List α) (stop : Nat) (x : List α × σ) : Prop where
  inv : I x.2
  perm : x.1.Perm vs₀
  rearranged : Rearranged stop (place default vs) (place default x.1)

/-- A heap that is broken at a place is mended. -/
theorem wp_tableSortSiftDown [Std.Refl le] [IsTrans α le] (h : Answers host I F (· ∈ vs₀) le) {fuel lo root stop : Nat}
    {us : List α} (hI : I s) (hperm : vs.Perm vs₀) (hus : Rearranged stop (place default us) (place default vs))
    (hstop : stop ≤ vs.length) (hlo : lo ≤ root) (hheap : HeapBut le (place default vs) lo root stop) :
    wp (tableSortSiftDown vecSortAccess host fuel root stop)
      (fun _ x => Sifted I vs₀ us stop x ∧ Heap le (place default x.1) lo stop)
      (fun e x => F e x.2 ∧ x.1.Perm vs₀) (vs, s) := by
  induction fuel generalizing root vs s with
  | zero => exact trivial
  | succ fuel ih =>
    rw [tableSortSiftDown, wp_bind]
    refine wp_call (fun _ s₁ hpoll => ?_) fun e s' he => ⟨h.poll_error s s' e hI he, hperm⟩
    have hI₁ := h.poll s s₁ hI hpoll
    refine wp_ite (fun hleft => ?_) fun hleft => ?_
    · -- The place has no children.
      rw [wp_pure]
      refine ⟨⟨hI₁, hperm, hus⟩, hheap.heap ?_⟩
      rintro c (rfl | rfl) hc <;> omega
    · rw [wp_bind]
      refine wp_mono_ok (wp_tableSortSmallest h hI₁ hperm (Nat.lt_of_not_le hleft) hstop) fun r x hr => ?_
      obtain ⟨vs', s₂⟩ := x
      obtain ⟨hvs, hI₂, hroot, hleast, hcase⟩ := hr
      obtain rfl : vs' = vs := hvs
      refine wp_ite (fun heq => ?_) fun hne => ?_
      · rw [wp_pure]
        exact ⟨⟨hI₂, hperm, hus⟩, hheap.heap (heq ▸ hleast)⟩
      · obtain ⟨hchild, hlt⟩ := hcase.resolve_left hne
        have hrootlt : root < r := by rcases hchild with hc | hc <;> omega
        have hplace : place default (swapAt vs' root r) = place default vs' ∘ Equiv.swap root r :=
          place_swapAt _ (by omega) (by omega)
        rw [wp_bind, wp_vecSortAccess_swap (by omega) (by omega)]
        refine ih hI₂ ((swapAt_perm (by omega) (by omega)).trans hperm) ?_ ?_ (by omega) ?_
        · rw [hplace]
          exact hus.swap (by omega) hlt
        · rw [length_swapAt]
          exact hstop
        · rw [hplace]
          exact hheap.sift hchild hlo hlt hleast hroot

/-- The places from the last parent down are made a heap. -/
theorem wp_tableSortHeapify [Std.Refl le] [IsTrans α le] (h : Answers host I F (· ∈ vs₀) le) {n k : Nat} (hI : I s)
    (hperm : vs.Perm vs₀) (hn : vs.length = n) (hheap : Heap le (place default vs) k n) :
    wp (tableSortHeapify vecSortAccess host n k)
      (fun _ x => I x.2 ∧ x.1.Perm vs₀ ∧ Heap le (place default x.1) 0 n)
      (fun e x => F e x.2 ∧ x.1.Perm vs₀) (vs, s) := by
  induction k generalizing vs s with
  | zero => exact ⟨hI, hperm, hheap⟩
  | succ k ih =>
    rw [tableSortHeapify, wp_bind]
    refine wp_mono_ok (wp_tableSortSiftDown h hI hperm (Rearranged.refl n _) hn.ge le_rfl hheap.but) fun _ x hx => ?_
    obtain ⟨vs', s'⟩ := x
    obtain ⟨⟨hI', hperm', -⟩, hheap'⟩ := hx
    exact ih hI' hperm' (hperm'.length_eq.trans (hperm.length_eq.symm.trans hn)) hheap'

/-- The values are put in their places from the end on. -/
theorem wp_tableSortSortdown [Std.Refl le] [IsTrans α le] (h : Answers host I F (· ∈ vs₀) le) {k n : Nat} (hI : I s)
    (hperm : vs.Perm vs₀) (hn : vs.length = n) (hk : k < n) (hheap : Heap le (place default vs) 0 (k + 1))
    (hplaced : Placed le (place default vs) (k + 1) n) :
    wp (tableSortSortdown vecSortAccess host k)
      (fun _ x => I x.2 ∧ x.1.Perm vs₀ ∧ Placed le (place default x.1) 1 n)
      (fun e x => F e x.2 ∧ x.1.Perm vs₀) (vs, s) := by
  induction k generalizing vs s with
  | zero => exact ⟨hI, hperm, hplaced⟩
  | succ k ih =>
    rw [tableSortSortdown, wp_bind]
    refine wp_call (fun _ s₁ hpoll => ?_) fun e s' he => ⟨h.poll_error s s' e hI he, hperm⟩
    have hplace : place default (swapAt vs 0 (k + 1)) = place default vs ∘ Equiv.swap 0 (k + 1) :=
      place_swapAt _ (by omega) (by omega)
    have hperm₁ : (swapAt vs 0 (k + 1)).Perm vs₀ := (swapAt_perm (by omega) (by omega)).trans hperm
    rw [wp_bind, wp_vecSortAccess_swap (by omega) (by omega), wp_bind]
    refine wp_mono_ok (wp_tableSortSiftDown h (h.poll s s₁ hI hpoll) hperm₁ (Rearranged.refl (k + 1) _)
      (by rw [length_swapAt]; omega) le_rfl (by rw [hplace]; exact hheap.extract)) fun _ x hx => ?_
    obtain ⟨vs', s'⟩ := x
    obtain ⟨⟨hI', hperm', hre⟩, hheap'⟩ := hx
    rw [hplace] at hre
    exact ih hI' hperm' (hperm'.length_eq.trans (hperm.length_eq.symm.trans hn)) (by omega) hheap'
      (hplaced.extract hheap hre)

/-- The places before the ones that are left, and those as far from the end, have been exchanged. -/
theorem wp_tableSortReverse (h : Answers host I F (· ∈ vs₀) le) {v : Nat → α} {n left : Nat} (hI : I s)
    (hperm : vs.Perm vs₀) (hn : vs.length = n) (hleft : left ≤ n / 2)
    (hv : ∀ j < n, place default vs j =
      if j < n / 2 - left ∨ n ≤ j + (n / 2 - left) then v (n - 1 - j) else v j) :
    wp (tableSortReverse vecSortAccess host n left)
      (fun _ x => I x.2 ∧ x.1.Perm vs₀ ∧ ∀ j < n, place default x.1 j = v (n - 1 - j))
      (fun e x => F e x.2 ∧ x.1.Perm vs₀) (vs, s) := by
  induction left generalizing vs s with
  | zero =>
    refine ⟨hI, hperm, fun j hj => ?_⟩
    rw [hv j hj]
    split
    · rfl
    · -- The place in the middle.
      exact congrArg v (by omega)
  | succ left ih =>
    rw [tableSortReverse, wp_bind]
    refine wp_call (fun _ s₁ hpoll => ?_) fun e s' he => ⟨h.poll_error s s' e hI he, hperm⟩
    obtain ⟨i, hi⟩ : ∃ i, n / 2 - (left + 1) = i := ⟨_, rfl⟩
    have hnext : n / 2 - left = i + 1 := by omega
    rw [hi] at hv ⊢
    rw [hnext] at ih
    rw [wp_bind, wp_vecSortAccess_swap (by omega) (by omega)]
    refine ih (h.poll s s₁ hI hpoll) ((swapAt_perm (by omega) (by omega)).trans hperm)
      (by rw [length_swapAt]; exact hn) (by omega) fun j hj => ?_
    rw [place_swapAt _ (by omega) (by omega), Function.comp]
    by_cases hji : j = i
    · rw [hji, Equiv.swap_apply_left, hv _ (by omega), if_neg (by omega), if_pos (by omega)]
    by_cases hjn : j = n - 1 - i
    · rw [hjn, Equiv.swap_apply_right, hv _ (by omega), if_neg (by omega), if_pos (by omega)]
      exact congrArg v (by omega)
    · rw [Equiv.swap_apply_of_ne_of_ne hji hjn, hv j hj]
      congr 1
      exact propext (by omega)

/-- The sort ends with the values in order, or with an error and the values in some order. -/
theorem wp_tableSortHeap [Std.Refl le] [IsTrans α le] (h : Answers host I F (· ∈ vs₀) le) (hI : I s) :
    wp (tableSortHeap vecSortAccess host vs₀.length)
      (fun _ x => I x.2 ∧ x.1.Perm vs₀ ∧ x.1.Pairwise le)
      (fun e x => F e x.2 ∧ x.1.Perm vs₀) (vs₀, s) := by
  obtain ⟨n, hn⟩ : ∃ n, vs₀.length = n := ⟨_, rfl⟩
  rw [tableSortHeap, hn, wp_bind]
  refine wp_mono_ok (wp_tableSortHeapify h hI (List.Perm.refl vs₀) hn (heap_of_half le_rfl)) fun _ x hx => ?_
  obtain ⟨vs₁, s₁⟩ := x
  obtain ⟨hI₁, hperm₁, hheap⟩ := hx
  have hn₁ := hperm₁.length_eq.trans hn
  have hsorted : wp (tableSortSortdown vecSortAccess host (n - 1))
      (fun _ x => I x.2 ∧ x.1.Perm vs₀ ∧ Placed le (place default x.1) 1 n)
      (fun e x => F e x.2 ∧ x.1.Perm vs₀) (vs₁, s₁) := by
    rcases Nat.eq_zero_or_pos n with rfl | hpos
    · exact ⟨hI₁, hperm₁, fun i j _ _ hj => absurd hj (Nat.not_lt_zero j)⟩
    · rw [← Nat.sub_add_cancel hpos] at hheap
      exact wp_tableSortSortdown h hI₁ hperm₁ hn₁ (by omega) hheap fun i j hij hj hjn => by omega
  rw [wp_bind]
  refine wp_mono_ok hsorted fun _ x hx => ?_
  obtain ⟨vs₂, s₂⟩ := x
  obtain ⟨hI₂, hperm₂, hplaced⟩ := hx
  have hn₂ := hperm₂.length_eq.trans hn
  refine wp_mono_ok (wp_tableSortReverse (v := place default vs₂) h hI₂ hperm₂ hn₂ le_rfl
    fun j hj => by rw [if_neg (by omega)]) fun _ x hx => ?_
  obtain ⟨vs₃, s₃⟩ := x
  obtain ⟨hI₃, hperm₃, hrev⟩ := hx
  have hn₃ := hperm₃.length_eq.trans hn
  refine ⟨hI₃, hperm₃, List.pairwise_iff_getElem.2 fun i j hi hj hij => ?_⟩
  -- What is descending before it is reversed is ascending then.
  have hle := hplaced (n - 1 - j) (n - 1 - i) (by omega) (by omega) (by omega)
  rw [← hrev i (by omega), ← hrev j (by omega), place_of_lt _ hi, place_of_lt _ hj] at hle
  exact hle

/-- The states that the calls of a sort reach, none of which failed. -/
inductive SortHost.Reaches (host : SortHost σ ε α) : σ → σ → Prop
  | refl (s : σ) : Reaches host s s
  | poll {s s₁ s₂ : σ} : Reaches host s s₁ → host.pollInterrupt s₁ = (.ok (), s₂) → Reaches host s s₂
  | less {s s₁ s₂ : σ} {a b : α} {r : Bool} : Reaches host s s₁ → host.less a b s₁ = (.ok r, s₂) → Reaches host s s₂

/-- In the states `I`, the comparator decides a strict weak order of the values, whatever else it does. -/
structure SortHost.Orders (host : SortHost σ ε α) (I : σ → Prop) (vs : List α) (lt : α → α → Prop) : Prop where
  order : IsStrictWeakOrder {v // v ∈ vs} fun a b => lt a b
  less : ∀ s s' a b r, I s → a ∈ vs → b ∈ vs → host.less a b s = (.ok r, s') → (r = true ↔ lt a b)

omit [Inhabited α] in
/-- What a comparator that decides a strict weak order says of what may come before what. -/
theorem SortHost.Orders.before {lt : α → α → Prop} (h : host.Orders I vs lt) {a b : α} {r : Bool} {s' : σ} (hI : I s)
    (ha : a ∈ vs) (hb : b ∈ vs) (hl : host.less a b s = (.ok r, s')) :
    if r then Before (· ∈ vs) lt a b else Before (· ∈ vs) lt b a := by
  have hlt := h.less s s' a b r hI ha hb hl
  have := h.order
  cases r with
  | true =>
    exact fun _ => ⟨ha, asymm_of (fun a b : {v // v ∈ vs} => lt a b) (a := ⟨a, ha⟩) (b := ⟨b, hb⟩) (hlt.1 rfl)⟩
  | false => exact fun _ => ⟨hb, fun hab => Bool.false_ne_true (hlt.2 hab)⟩

omit [Inhabited α] in
/-- In a list that is in order no later value is less than an earlier one. -/
theorem pairwise_not_lt {vs vs' : List α} {lt : α → α → Prop} (hperm : vs'.Perm vs)
    (h : vs'.Pairwise (Before (· ∈ vs) lt)) : vs'.Pairwise fun a b => ¬lt b a :=
  h.imp_of_mem fun _ hb hab => (hab (hperm.mem_iff.1 hb)).2

omit [Inhabited α] in
theorem answers_true (host : SortHost σ ε α) (S : α → Prop) :
    Answers host (fun _ => True) (fun _ _ => True) S fun _ _ => True where
  poll _ _ _ _ := trivial
  poll_error _ _ _ _ _ := trivial
  less _ _ _ r _ _ _ _ _ := ⟨trivial, by cases r <;> trivial⟩
  less_error _ _ _ _ _ _ _ _ _ := trivial

/-- Whatever the comparator answers, the sort ends, with the values in some order. -/
theorem tableSortHeap_perm (host : SortHost σ ε α) (vs : List α) (s : σ) :
    ∃ vs' s', vs'.Perm vs ∧ (tableSortHeap vecSortAccess host vs.length (vs, s) = .ok () (vs', s') ∨
      ∃ e, tableSortHeap vecSortAccess host vs.length (vs, s) = .fail e (vs', s')) := by
  have : Std.Refl fun _ _ : α => True := ⟨fun _ => trivial⟩
  have : IsTrans α fun _ _ => True := ⟨fun _ _ _ _ _ => trivial⟩
  have hsort := wp_tableSortHeap (s := s) (answers_true host (· ∈ vs)) trivial
  have hends : tableSortHeap vecSortAccess host vs.length (vs, s) ≠ .timeout :=
    settles_tableSortHeap ends_vecSortAccess _ _
  rw [wp] at hsort
  cases hrun : tableSortHeap vecSortAccess host vs.length (vs, s) with
  | ok u x =>
    rw [hrun] at hsort
    exact ⟨x.1, x.2, hsort.2.1, .inl rfl⟩
  | fail e x =>
    rw [hrun] at hsort
    exact ⟨x.1, x.2, hsort.2, .inr ⟨e, rfl⟩⟩
  | panic => rw [hrun] at hsort; exact hsort.elim
  | timeout => exact absurd hrun hends

/-- The sort with a comparator that decides a strict weak order ends with the values in order. -/
theorem tableSortHeap_sorted {lt : α → α → Prop} (h : host.Orders (host.Reaches s) vs lt) {vs' : List α} {s' : σ}
    (hrun : tableSortHeap vecSortAccess host vs.length (vs, s) = .ok () (vs', s')) :
    vs'.Pairwise fun a b => ¬lt b a := by
  have := h.order
  have : Std.Refl (Before (· ∈ vs) lt) := before_refl
  have : IsTrans α (Before (· ∈ vs) lt) := before_trans
  have hans : Answers host (host.Reaches s) (fun _ _ => True) (· ∈ vs) (Before (· ∈ vs) lt) :=
    ⟨fun _ _ hs hp => hs.poll hp, fun _ _ _ _ _ => trivial, fun _ _ _ _ _ ha hb hs hl => ⟨hs.less hl, h.before hs ha hb hl⟩,
      fun _ _ _ _ _ _ _ _ _ => trivial⟩
  have hsort := wp_tableSortHeap hans (.refl s)
  rw [wp, hrun] at hsort
  exact pairwise_not_lt hsort.2.1 hsort.2.2

end Vec

end Dellingr.TableSort
