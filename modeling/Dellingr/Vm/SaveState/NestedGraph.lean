import Dellingr.Lib.Acyclic
import Dellingr.Vm.SaveState.Verify

/-!
# The graph of nested functions

A payload names the functions nested in a function by their ids, so a payload that was
tampered with may nest a function in itself, or so deeply that no function could run.
`validateNestedGraph` counts how often each function is nested and then visits a
function once all that nest it are visited, giving each the greatest depth at which it
is nested.

What the walk keeps true is stated of the functions not yet visited (`Walking`): each
count is of the functions not visited that nest the function, those of count zero are
ready, and along the edges walked the depths grow. A depth is never given without a
path of that many functions. So the walk accepts exactly the graphs in which no function
is nested in itself and no path is too long (`validateNestedGraph_eq_ok`).
-/

namespace Dellingr

/-! ## The graph -/

/-- The ids of the functions nested in the function of an id. -/
def childIds (bytecode : List SavedBytecode) (id : Nat) : List Nat :=
  ((bytecode[id]?.map SavedBytecode.nested).getD []).map UInt32.toNat

/-- One function is nested in another. -/
def Nests (bytecode : List SavedBytecode) (parent child : Nat) : Prop :=
  child ∈ childIds bytecode parent

/-- Every nested function is there. -/
def NestedInRange (bytecode : List SavedBytecode) : Prop :=
  ∀ parent child, Nests bytecode parent child → child < bytecode.length

/-- No path of nested functions is too long. -/
def NestedShallow (bytecode : List SavedBytecode) : Prop :=
  ∀ path : List Nat, path.IsChain (Nests bytecode) → path.length ≤ MAX_CHUNK_NESTING

/-- Every nested function captures variables of the function it is nested in. -/
def NestedCaptures (bytecode : List SavedBytecode) : Prop :=
  ∀ parent chunk child childChunk, bytecode[parent]? = some chunk → Nests bytecode parent child →
    bytecode[child]? = some childChunk → validateChild chunk.view childChunk.view = .ok ()

variable {bytecode : List SavedBytecode}

theorem Nests.lt {parent child : Nat} (h : Nests bytecode parent child) :
    parent < bytecode.length := by
  by_contra hge
  rw [Nests, childIds, List.getElem?_eq_none (Nat.le_of_not_lt hge)] at h
  cases h

theorem childIds_of_getElem? {id : Nat} {chunk : SavedBytecode} (h : bytecode[id]? = some chunk) :
    childIds bytecode id = chunk.nested.map UInt32.toNat := by
  rw [childIds, h]
  rfl

/-! ## Counting -/

theorem getD_modify {l : List Nat} {f : Nat → Nat} {i : Nat} (hi : i < l.length) (j : Nat) :
    (l.modify i f).getD j 0 = if i = j then f (l.getD j 0) else l.getD j 0 := by
  rw [List.getD_eq_getElem?_getD, List.getD_eq_getElem?_getD, List.getElem?_modify]
  split
  · next h =>
    subst h
    rw [List.getElem?_eq_getElem hi]
    rfl
  · cases l[j]? <;> rfl

theorem rejected_ok {chunk : Nat} {result : Validation Unit} (h : result = .ok ()) :
    rejected chunk result = .ok () := by
  rw [h]
  rfl

theorem rejected_error {chunk : Nat} {result : Validation Unit} (h : result ≠ .ok ()) :
    ∃ e, rejected chunk result = .error e := by
  cases result with
  | ok _ => exact absurd rfl h
  | error e => exact ⟨_, rfl⟩

/-- A nested function that is there and captures what it can. -/
def ChildAdmitted (bytecode : List SavedBytecode) (chunk : SavedBytecode) (child : UInt32) : Prop :=
  ∃ childChunk, bytecode[child.toNat]? = some childChunk ∧
    validateChild chunk.view childChunk.view = .ok ()

variable {parent : Nat} {chunk : SavedBytecode} {child : UInt32} {children : List UInt32}
  {indegree counted : List Nat}

theorem countChildren_admitted (h : ChildAdmitted bytecode chunk child) :
    countChildren bytecode parent chunk (child :: children) indegree =
      countChildren bytecode parent chunk children (indegree.modify child.toNat (· + 1)) := by
  obtain ⟨childChunk, hc, hv⟩ := h
  rw [countChildren, hc]
  simp only [rejected_ok hv]
  rfl

theorem countChildren_refused (h : ¬ChildAdmitted bytecode chunk child) :
    ∃ e, countChildren bytecode parent chunk (child :: children) indegree = .error e := by
  rw [countChildren]
  cases hc : bytecode[child.toNat]? with
  | none => exact ⟨_, rfl⟩
  | some childChunk =>
    obtain ⟨e, he⟩ : ∃ e, rejected parent (validateChild chunk.view childChunk.view) = .error e :=
      rejected_error fun hv => h ⟨childChunk, hc, hv⟩
    simp only [he]
    exact ⟨e, rfl⟩

/-- The functions nested in one are counted if each is admitted. -/
theorem countChildren_counts (hlen : indegree.length = bytecode.length)
    (h : countChildren bytecode parent chunk children indegree = .ok counted) :
    (∀ child ∈ children, ChildAdmitted bytecode chunk child) ∧ counted.length = bytecode.length ∧
      ∀ n, counted.getD n 0 = indegree.getD n 0 + (children.map UInt32.toNat).count n := by
  induction children generalizing indegree with
  | nil =>
    cases h
    exact ⟨nofun, hlen, fun n => rfl⟩
  | cons child children ih =>
    by_cases hadm : ChildAdmitted bytecode chunk child
    · rw [countChildren_admitted hadm] at h
      have hlt : child.toNat < indegree.length := by
        obtain ⟨childChunk, hc, -⟩ := hadm
        exact hlen ▸ (List.getElem?_eq_some_iff.1 hc).1
      obtain ⟨hall, hl, hn⟩ := ih ((List.length_modify ..).trans hlen) h
      refine ⟨List.forall_mem_cons.2 ⟨hadm, hall⟩, hl, fun n => ?_⟩
      rw [hn, getD_modify hlt, List.map_cons, List.count_cons]
      by_cases hcn : child.toNat = n
      · simp only [hcn, if_true, beq_self_eq_true]
        omega
      · simp only [hcn, if_false, beq_iff_eq]
        rfl
    · obtain ⟨e, he⟩ := countChildren_refused hadm
      rw [he] at h
      cases h

theorem countChildren_succeeds (h : ∀ child ∈ children, ChildAdmitted bytecode chunk child) :
    ∃ counted, countChildren bytecode parent chunk children indegree = .ok counted := by
  induction children generalizing indegree with
  | nil => exact ⟨indegree, rfl⟩
  | cons child children ih =>
    obtain ⟨hchild, hchildren⟩ := List.forall_mem_cons.1 h
    rw [countChildren_admitted hchild]
    exact ih hchildren

variable {chunks : List SavedBytecode}

theorem countAll_counts (hlen : indegree.length = bytecode.length)
    (h : countAll bytecode chunks parent indegree = .ok counted) :
    (∀ chunk ∈ chunks, ∀ child ∈ chunk.nested, ChildAdmitted bytecode chunk child) ∧
      counted.length = bytecode.length ∧
      ∀ n, counted.getD n 0 =
        indegree.getD n 0 + (chunks.flatMap fun chunk => chunk.nested.map UInt32.toNat).count n := by
  induction chunks generalizing parent indegree with
  | nil =>
    cases h
    exact ⟨nofun, hlen, fun n => rfl⟩
  | cons chunk chunks ih =>
    obtain ⟨inner, hinner, h⟩ : ∃ inner,
        countChildren bytecode parent chunk chunk.nested indegree = .ok inner ∧
        countAll bytecode chunks (parent + 1) inner = .ok counted := by
      rw [countAll] at h
      cases hc : countChildren bytecode parent chunk chunk.nested indegree with
      | error e =>
        rw [hc] at h
        cases h
      | ok inner =>
        rw [hc] at h
        exact ⟨inner, rfl, h⟩
    obtain ⟨hadm, hl, hn⟩ := countChildren_counts hlen hinner
    obtain ⟨hadm', hl', hn'⟩ := ih hl h
    refine ⟨List.forall_mem_cons.2 ⟨hadm, hadm'⟩, hl', fun n => ?_⟩
    rw [hn', hn, List.flatMap_cons, List.count_append, Nat.add_assoc]

theorem countAll_succeeds
    (h : ∀ chunk ∈ chunks, ∀ child ∈ chunk.nested, ChildAdmitted bytecode chunk child) :
    ∃ counted, countAll bytecode chunks parent indegree = .ok counted := by
  induction chunks generalizing parent indegree with
  | nil => exact ⟨indegree, rfl⟩
  | cons chunk chunks ih =>
    obtain ⟨hchunk, hchunks⟩ := List.forall_mem_cons.1 h
    obtain ⟨inner, hinner⟩ := countChildren_succeeds hchunk
    rw [countAll, hinner]
    exact ih hchunks

/-! ## What the walk keeps true -/

/-- The depth the walk has given a function. -/
def NestedWalk.depth (w : NestedWalk) (id : Nat) : Nat := w.depths.getD id 0

/-- The functions nested in those not visited, and those of the function being visited
    that are still to be seen. -/
def unseen (bytecode : List SavedBytecode) (rest left : List Nat) : List Nat :=
  rest ++ left.flatMap (childIds bytecode)

/-- What holds of the walk while the functions `left` are not visited and the functions
    `rest` nested in `parent` are still to be seen. -/
structure Walking (bytecode : List SavedBytecode) (parent : Nat) (rest left : List Nat)
    (w : NestedWalk) : Prop where
  indegree_length : w.indegree.length = bytecode.length
  depths_length : w.depths.length = bytecode.length
  left_nodup : left.Nodup
  left_lt : ∀ n ∈ left, n < bytecode.length
  visited : w.visited + left.length = bytecode.length
  count : ∀ n, w.indegree.getD n 0 = (unseen bytecode rest left).count n
  ready_nodup : w.ready.Nodup
  ready : ∀ n, n ∈ w.ready ↔ n ∈ left ∧ n ∉ unseen bytecode rest left
  /-- What is visited is nested in no other function. -/
  done : ∀ n < bytecode.length, n ∉ left → n ∉ unseen bytecode rest left
  positive : ∀ n < bytecode.length, n ∉ unseen bytecode rest left → 1 ≤ w.depth n
  /-- Depths grow along the edges seen. -/
  grows : ∀ m n, Nests bytecode m n → m ∉ left → (m = parent ∧ n ∈ rest) ∨ w.depth m < w.depth n
  bounded : ∀ n, w.depth n ≤ MAX_CHUNK_NESTING
  /-- A depth is the length of a path. -/
  path : ∀ n, 1 ≤ w.depth n →
    ∃ path, (n :: path).IsChain (flip (Nests bytecode)) ∧ path.length + 1 = w.depth n

/-- A path of nested functions is too long. -/
def TooDeep (bytecode : List SavedBytecode) : Prop :=
  ∃ path : List Nat, path.IsChain (Nests bytecode) ∧ MAX_CHUNK_NESTING < path.length

theorem not_tooDeep : ¬TooDeep bytecode ↔ NestedShallow bytecode := by
  rw [TooDeep, NestedShallow]
  push Not
  rfl

theorem tooDeep_of_flip {path : List Nat} (hpath : path.IsChain (flip (Nests bytecode)))
    (hlen : MAX_CHUNK_NESTING < path.length) : TooDeep bytecode :=
  ⟨path.reverse, List.isChain_reverse.2 hpath, by rwa [List.length_reverse]⟩

variable {w : NestedWalk} {left : List Nat}

theorem validateDepth_eq_ok {depth : Nat} : validateDepth depth = .ok () ↔ depth ≤ MAX_CHUNK_NESTING := by
  rw [validateDepth, ensure]
  split
  · next h => exact ⟨fun _ => h, fun _ => rfl⟩
  · next h => exact ⟨nofun, fun hle => absurd hle h⟩

/-- The walk after seeing that `child` is nested in a function of the given depth. -/
def NestedWalk.see (w : NestedWalk) (depth child : Nat) : NestedWalk :=
  let indegree := w.indegree.modify child (· - 1)
  { w with
    indegree
    depths := w.depths.modify child (max · (depth + 1))
    ready := if indegree.getD child 0 = 0 then w.ready ++ [child] else w.ready }

/-- A nested function is seen unless it is nested too deeply. -/
theorem visitChildren_cons {depth : Nat} :
    (max (w.depth child.toNat) (depth + 1) ≤ MAX_CHUNK_NESTING →
      child.toNat < w.depths.length →
      visitChildren depth (child :: children) w = visitChildren depth children (w.see depth child.toNat)) ∧
    (¬max (w.depth child.toNat) (depth + 1) ≤ MAX_CHUNK_NESTING →
      child.toNat < w.depths.length →
      ∃ e, visitChildren depth (child :: children) w = .error e) := by
  have hget : child.toNat < w.depths.length →
      (w.depths.modify child.toNat (max · (depth + 1))).getD child.toNat 0 =
        max (w.depth child.toNat) (depth + 1) := by
    intro hlt
    rw [getD_modify hlt, if_pos rfl]
    rfl
  refine ⟨fun hle hlt => ?_, fun hle hlt => ?_⟩
  · rw [visitChildren]
    simp only [hget hlt, rejected_ok (validateDepth_eq_ok.2 hle)]
    rfl
  · obtain ⟨e, he⟩ : ∃ e, rejected child.toNat
        (validateDepth (max (w.depth child.toNat) (depth + 1))) = .error e :=
      rejected_error fun h => hle (validateDepth_eq_ok.1 h)
    rw [visitChildren]
    simp only [hget hlt, he]
    exact ⟨e, rfl⟩

namespace Walking

variable {c : Nat} {rest : List Nat}

theorem mem_left (hrange : NestedInRange bytecode) (h : Walking bytecode parent (c :: rest) left w)
    (hc : Nests bytecode parent c) : c ∈ left := by
  by_contra hnot
  exact h.done c (hrange _ _ hc) hnot List.mem_cons_self

/-- The function being visited is not seen again. -/
theorem parent_ne (h : Walking bytecode parent (c :: rest) left w) (hc : Nests bytecode parent c)
    (hparent : parent ∉ left) : c ≠ parent := by
  rintro rfl
  exact h.done c hc.lt hparent List.mem_cons_self

theorem depth_see (h : Walking bytecode parent rest left w) (hc : c < bytecode.length) (depth n : Nat) :
    (w.see depth c).depth n = if c = n then max (w.depth n) (depth + 1) else w.depth n :=
  getD_modify (h.depths_length ▸ hc) n

/-- The path that leads to a function leads on to those nested in it. -/
theorem path_see (h : Walking bytecode parent (c :: rest) left w) (hc : Nests bytecode parent c)
    (hparent : parent ∉ left) :
    ∃ path, (c :: path).IsChain (flip (Nests bytecode)) ∧ path.length + 1 = w.depth parent + 1 := by
  have hpos : 1 ≤ w.depth parent := h.positive _ hc.lt (h.done _ hc.lt hparent)
  obtain ⟨path, hpath, hlen⟩ := h.path parent hpos
  exact ⟨parent :: path, List.isChain_cons_cons.2 ⟨hc, hpath⟩, by rw [List.length_cons, hlen]⟩

/-- Seeing a nested function. -/
theorem see (hrange : NestedInRange bytecode) (h : Walking bytecode parent (c :: rest) left w)
    (hc : Nests bytecode parent c) (hparent : parent ∉ left)
    (hbound : max (w.depth c) (w.depth parent + 1) ≤ MAX_CHUNK_NESTING) :
    Walking bytecode parent rest left (w.see (w.depth parent) c) := by
  have hlt := hrange _ _ hc
  have hleft := h.mem_left hrange hc
  have hdepth := h.depth_see hlt (w.depth parent)
  have hcons : unseen bytecode (c :: rest) left = c :: unseen bytecode rest left := rfl
  have hcount : ∀ n, (w.see (w.depth parent) c).indegree.getD n 0 =
      (unseen bytecode rest left).count n := by
    intro n
    refine (getD_modify (h.indegree_length ▸ hlt) n).trans ?_
    rw [h.count, hcons, List.count_cons]
    by_cases hcn : c = n
    · simp only [hcn, if_true, beq_self_eq_true, Nat.add_sub_cancel]
    · simp only [hcn, if_false, beq_iff_eq, Nat.add_zero]
  have hnot : c ∉ w.ready := fun hmem => ((h.ready c).1 hmem).2 List.mem_cons_self
  refine
    { indegree_length := (List.length_modify ..).trans h.indegree_length
      depths_length := (List.length_modify ..).trans h.depths_length
      left_nodup := h.left_nodup
      left_lt := h.left_lt
      visited := h.visited
      count := hcount
      ready_nodup := ?_
      ready := ?_
      done := fun n hn hl hmem => h.done n hn hl (List.mem_cons_of_mem _ hmem)
      positive := ?_
      grows := ?_
      bounded := ?_
      path := ?_ }
  · show (if _ then w.ready ++ [c] else w.ready).Nodup
    split
    · exact List.nodup_append.2 ⟨h.ready_nodup, List.nodup_singleton c, by
        rintro a ha b hb rfl
        exact hnot (List.mem_singleton.1 hb ▸ ha)⟩
    · exact h.ready_nodup
  · -- The function becomes ready when it was seen for the last time.
    intro n
    show n ∈ (if (w.see (w.depth parent) c).indegree.getD c 0 = 0 then w.ready ++ [c] else w.ready) ↔ _
    simp only [hcount, List.count_eq_zero]
    by_cases hcn : c = n
    · subst hcn
      split
      · next hz => exact ⟨fun _ => ⟨hleft, hz⟩, fun _ => List.mem_append_right _ List.mem_cons_self⟩
      · next hz => exact ⟨fun hmem => absurd hmem hnot, fun hmem => absurd hmem.2 hz⟩
    · have hmem : n ∈ unseen bytecode (c :: rest) left ↔ n ∈ unseen bytecode rest left := by
        rw [hcons, List.mem_cons, or_iff_right (Ne.symm hcn)]
      rw [← hmem, ← h.ready n]
      split
      · rw [List.mem_append, List.mem_singleton, or_iff_left (Ne.symm hcn)]
      · rfl
  · intro n hn hmem
    rw [hdepth]
    split
    · exact (Nat.le_add_left 1 _).trans (le_max_right _ _)
    · next hcn =>
      refine h.positive n hn fun hmem' => ?_
      obtain rfl | hmem' := List.mem_cons.1 hmem'
      · exact hcn rfl
      · exact hmem hmem'
  · intro m n hmn hm
    have hcm : c ≠ m := fun hcm => hm (hcm ▸ hleft)
    rw [hdepth m, if_neg hcm, hdepth n]
    obtain ⟨rfl, hn⟩ | hlt := h.grows m n hmn hm
    · obtain rfl | hn := List.mem_cons.1 hn
      · rw [if_pos rfl]
        exact .inr (Nat.lt_of_succ_le (le_max_right _ _))
      · exact .inl ⟨rfl, hn⟩
    · right
      split
      · exact hlt.trans_le (le_max_left _ _)
      · exact hlt
  · intro n
    rw [hdepth]
    split
    · next hcn => exact hcn ▸ hbound
    · exact h.bounded n
  · intro n hpos
    rw [hdepth] at hpos ⊢
    split
    · next hcn =>
      subst hcn
      obtain hle | hle := Nat.le_total (w.depth c) (w.depth parent + 1)
      · rw [max_eq_right hle]
        exact h.path_see hc hparent
      · rw [max_eq_left hle]
        exact h.path c ((Nat.le_add_left 1 _).trans hle)
    · next hcn => exact h.path n (by rwa [if_neg hcn] at hpos)

/-- Visiting the functions nested in one ends with all of them seen, unless a path is too
    long. -/
theorem visit (hrange : NestedInRange bytecode)
    (h : Walking bytecode parent (children.map UInt32.toNat) left w) (hparent : parent ∉ left)
    (hsub : ∀ c ∈ children, Nests bytecode parent c.toNat) {depth : Nat} (hdepth : w.depth parent = depth) :
    (∃ w', visitChildren depth children w = .ok w' ∧ Walking bytecode parent [] left w') ∨
    ((∃ e, visitChildren depth children w = .error e) ∧ TooDeep bytecode) := by
  induction children generalizing w with
  | nil => exact .inl ⟨w, rfl, h⟩
  | cons child children ih =>
    obtain ⟨hchild, hchildren⟩ := List.forall_mem_cons.1 hsub
    have hlt : child.toNat < w.depths.length := h.depths_length ▸ hrange _ _ hchild
    subst hdepth
    by_cases hbound : max (w.depth child.toNat) (w.depth parent + 1) ≤ MAX_CHUNK_NESTING
    · rw [visitChildren_cons.1 hbound hlt]
      refine ih (h.see hrange hchild hparent hbound) hchildren ?_
      rw [h.depth_see (hrange _ _ hchild), if_neg (h.parent_ne hchild hparent)]
    · refine .inr ⟨visitChildren_cons.2 hbound hlt, ?_⟩
      -- The depth was within bounds before, so it is the path through the parent.
      obtain ⟨path, hpath, hlen⟩ := h.path_see hchild hparent
      have hle := h.bounded child.toNat
      refine tooDeep_of_flip hpath ?_
      rw [List.length_cons, hlen]
      omega

/-- Starting to visit a function that is ready. -/
theorem start (h : Walking bytecode parent [] left w) {next : Nat} {ready : List Nat}
    (hready : w.ready = next :: ready) :
    Walking bytecode next (childIds bytecode next) (left.erase next)
      { w with ready := ready, visited := w.visited + 1 } := by
  obtain ⟨hnext, hzero⟩ := (h.ready next).1 (hready ▸ List.mem_cons_self)
  have hnodup : (next :: ready).Nodup := hready ▸ h.ready_nodup
  have hperm : (unseen bytecode (childIds bytecode next) (left.erase next)).Perm
      (unseen bytecode [] left) :=
    ((List.perm_cons_erase hnext).flatMap_right (childIds bytecode)).symm
  have hmem : ∀ {n}, n ∈ left.erase next ↔ n ≠ next ∧ n ∈ left := h.left_nodup.mem_erase_iff
  refine
    { indegree_length := h.indegree_length
      depths_length := h.depths_length
      left_nodup := h.left_nodup.erase next
      left_lt := fun n hn => h.left_lt n (hmem.1 hn).2
      visited := ?_
      count := fun n => (h.count n).trans (hperm.count_eq n).symm
      ready_nodup := hnodup.of_cons
      ready := fun n => ?_
      done := fun n hn hl => ?_
      positive := fun n hn hmem => h.positive n hn fun hm => hmem (hperm.mem_iff.2 hm)
      grows := fun m n hmn hm => ?_
      bounded := h.bounded
      path := h.path }
  · have hpos := List.length_pos_of_mem hnext
    have hv := h.visited
    show w.visited + 1 + _ = _
    rw [List.length_erase_of_mem hnext]
    omega
  · rw [hperm.mem_iff, hmem]
    have hn := h.ready n
    rw [hready, List.mem_cons] at hn
    constructor
    · intro hr
      have hne : n ≠ next := fun heq => hnodup.notMem (heq ▸ hr)
      exact ⟨⟨hne, (hn.1 (.inr hr)).1⟩, (hn.1 (.inr hr)).2⟩
    · rintro ⟨⟨hne, hl⟩, hu⟩
      exact (hn.2 ⟨hl, hu⟩).resolve_left hne
  · rw [hperm.mem_iff]
    by_cases heq : n = next
    · exact heq ▸ hzero
    · exact h.done n hn fun hl' => hl (hmem.2 ⟨heq, hl'⟩)
  · by_cases heq : m = next
    · exact .inl ⟨heq, heq ▸ hmn⟩
    · refine .inr ((h.grows m n hmn fun hl => hm (hmem.2 ⟨heq, hl⟩)).resolve_left ?_)
      rintro ⟨-, hnil⟩
      cases hnil

/-- As many visits as there are functions left suffice: the walk ends with none ready,
    unless a path is too long. -/
theorem walk (hrange : NestedInRange bytecode) (h : Walking bytecode parent [] left w) :
    ∃ res, (∀ fuel, left.length ≤ fuel → walkReady bytecode fuel w = res) ∧
      ((∃ w' left' parent', res = .ok w' ∧ w'.ready = [] ∧ Walking bytecode parent' [] left' w') ∨
        ((∃ e, res = .error e) ∧ TooDeep bytecode)) := by
  generalize hlen : left.length = size
  induction size generalizing parent left w with
  | zero =>
    obtain rfl := List.length_eq_zero_iff.1 hlen
    have hready : w.ready = [] := List.eq_nil_iff_forall_not_mem.2 fun n hn =>
      List.not_mem_nil ((h.ready n).1 hn).1
    refine ⟨.ok w, fun fuel _ => ?_, .inl ⟨w, [], parent, rfl, hready, h⟩⟩
    cases fuel with
    | zero => rfl
    | succ fuel => simp only [walkReady, hready]
  | succ size ih =>
    cases hready : w.ready with
    | nil =>
      refine ⟨.ok w, fun fuel _ => ?_, .inl ⟨w, left, parent, rfl, hready, h⟩⟩
      cases fuel with
      | zero => rfl
      | succ fuel => simp only [walkReady, hready]
    | cons next ready =>
      obtain ⟨hnext, -⟩ := (h.ready next).1 (hready ▸ List.mem_cons_self)
      have hvisit := (h.start hready).visit hrange (fun hm => (h.left_nodup.mem_erase_iff.1 hm).1 rfl)
        (fun c hc => List.mem_map_of_mem hc) rfl
      have hwalk : ∀ fuel, walkReady bytecode (fuel + 1) w =
          (visitChildren (w.depth next) ((bytecode[next]?.map SavedBytecode.nested).getD [])
            { w with ready := ready, visited := w.visited + 1 }).bind
            (walkReady bytecode fuel) := by
        intro fuel
        simp only [walkReady, hready]
        rfl
      obtain ⟨w', hw', h'⟩ | ⟨⟨e, he⟩, hdeep⟩ := hvisit
      · obtain ⟨res, hres, hcases⟩ := ih h' (by rw [List.length_erase_of_mem hnext, hlen]; rfl)
        refine ⟨res, fun fuel hle => ?_, hcases⟩
        obtain ⟨fuel, rfl⟩ : ∃ n, fuel = n + 1 := ⟨fuel - 1, by omega⟩
        rw [hwalk]
        refine (congrArg (Except.bind · _) hw').trans ?_
        exact hres fuel (by omega)
      · refine ⟨.error e, fun fuel hle => ?_, .inr ⟨⟨e, rfl⟩, hdeep⟩⟩
        obtain ⟨fuel, rfl⟩ : ∃ n, fuel = n + 1 := ⟨fuel - 1, by omega⟩
        rw [hwalk]
        exact congrArg (Except.bind · _) he

/-- With no function ready, those not visited contain a cycle. -/
theorem left_eq_nil (h : Walking bytecode parent [] left w) (hready : w.ready = [])
    (hac : Graph.Acyclic (Nests bytecode)) : left = [] := by
  by_contra hne
  refine Graph.not_acyclic_of_predecessors (s := {n | n ∈ left}) left.finite_toSet
    (List.exists_mem_of_ne_nil _ hne) (fun n hn => ?_) hac
  have hmem : n ∈ unseen bytecode [] left := by
    by_contra hnot
    have hr := (h.ready n).2 ⟨hn, hnot⟩
    rw [hready] at hr
    cases hr
  exact List.mem_flatMap.1 hmem

/-- When all functions are visited, their depths grow along every edge. -/
theorem lt_of_nests (h : Walking bytecode parent [] [] w) {m n : Nat} (hmn : Nests bytecode m n) :
    w.depth m < w.depth n :=
  (h.grows m n hmn List.not_mem_nil).resolve_left fun hm => List.not_mem_nil hm.2

theorem acyclic (h : Walking bytecode parent [] [] w) : Graph.Acyclic (Nests bytecode) :=
  .of_rank w.depth fun _ _ => h.lt_of_nests

theorem shallow (h : Walking bytecode parent [] [] w) : NestedShallow bytecode := by
  intro path hpath
  match path with
  | [] => exact Nat.zero_le _
  | [n] => exact (by decide : 1 ≤ MAX_CHUNK_NESTING)
  | m :: n :: path =>
    have hm := (List.isChain_cons_cons.1 hpath).1.lt
    have hpos : 1 ≤ w.depth m := h.positive m hm (h.done m hm List.not_mem_nil)
    have hle := Graph.length_le_of_rank (fun _ _ hmn => h.lt_of_nests hmn) h.bounded hpath
    rw [List.length_cons]
    omega

end Walking

/-! ## The graphs accepted -/

theorem flatMap_childIds :
    (List.range bytecode.length).flatMap (childIds bytecode) =
      bytecode.flatMap fun chunk => chunk.nested.map UInt32.toNat := by
  have hmap : (List.range bytecode.length).map (childIds bytecode) =
      bytecode.map fun chunk => chunk.nested.map UInt32.toNat := by
    refine List.ext_getElem (by simp) fun i hi hi' => ?_
    rw [List.length_map] at hi'
    rw [List.getElem_map, List.getElem_map, List.getElem_range,
      childIds_of_getElem? (List.getElem?_eq_getElem hi')]
  rw [List.flatMap_def, List.flatMap_def, hmap]

/-- The walk starts with the functions nested in no other. -/
theorem walking_start
    (h : countAll bytecode bytecode 0 (List.replicate bytecode.length 0) = .ok indegree) :
    Walking bytecode 0 [] (List.range bytecode.length) (.start indegree) := by
  obtain ⟨-, hlen, hcount⟩ := countAll_counts List.length_replicate h
  have hcount : ∀ n, indegree.getD n 0 = (unseen bytecode [] (List.range bytecode.length)).count n := by
    intro n
    have hz : (List.replicate bytecode.length 0).getD n 0 = 0 := by
      rw [List.getD_eq_getElem?_getD, List.getElem?_replicate]
      split <;> rfl
    rw [hcount, hz, Nat.zero_add, unseen, flatMap_childIds, List.nil_append]
  have hdepth : ∀ n, (NestedWalk.start indegree).depth n =
      if n < bytecode.length ∧ (unseen bytecode [] (List.range bytecode.length)).count n = 0
        then 1 else 0 := by
    intro n
    rw [← hcount, NestedWalk.depth, NestedWalk.start]
    simp only [List.getD_eq_getElem?_getD, List.getElem?_map, ← hlen]
    by_cases hn : n < indegree.length
    · rw [List.getElem?_eq_getElem hn]
      simp [hn]
    · rw [List.getElem?_eq_none (Nat.le_of_not_lt hn)]
      simp [hn]
  refine
    { indegree_length := hlen
      depths_length := (List.length_map _).trans hlen
      left_nodup := List.nodup_range
      left_lt := fun n => List.mem_range.1
      visited := by rw [List.length_range]; exact Nat.zero_add _
      count := hcount
      ready_nodup := List.nodup_range.filter _
      ready := fun n => ?_
      done := fun n hn hl => absurd (List.mem_range.2 hn) hl
      positive := fun n hn hmem =>
        ((hdepth n).trans (if_pos ⟨hn, List.count_eq_zero.2 hmem⟩)).ge
      grows := fun m n hmn hm => absurd (List.mem_range.2 hmn.lt) hm
      bounded := fun n => ?_
      path := fun n hpos => ⟨[], List.isChain_singleton _, ?_⟩ }
  · show n ∈ (List.range indegree.length).filter _ ↔ _
    rw [List.mem_filter, hlen, decide_eq_true_iff, hcount, List.count_eq_zero]
  · rw [hdepth]
    split <;> decide
  · rw [hdepth] at hpos ⊢
    split at hpos
    · next hz => rw [if_pos hz]; rfl
    · cases hpos

theorem childAdmitted_iff :
    (∀ chunk ∈ bytecode, ∀ child ∈ chunk.nested, ChildAdmitted bytecode chunk child) ↔
      NestedInRange bytecode ∧ NestedCaptures bytecode := by
  constructor
  · intro h
    have hadm : ∀ parent chunk child, bytecode[parent]? = some chunk → Nests bytecode parent child →
        ∃ childChunk, bytecode[child]? = some childChunk ∧
          validateChild chunk.view childChunk.view = .ok () := by
      intro parent chunk child hp hn
      rw [Nests, childIds_of_getElem? hp] at hn
      obtain ⟨id, hid, rfl⟩ := List.mem_map.1 hn
      exact h chunk (List.mem_of_getElem? hp) id hid
    refine ⟨fun parent child hn => ?_, fun parent chunk child childChunk hp hn hc => ?_⟩
    · obtain ⟨childChunk, hc, -⟩ := hadm parent _ child (List.getElem?_eq_getElem hn.lt) hn
      exact (List.getElem?_eq_some_iff.1 hc).1
    · obtain ⟨childChunk', hc', hv⟩ := hadm parent chunk child hp hn
      rw [hc] at hc'
      cases hc'
      exact hv
  · rintro ⟨hrange, hcapt⟩ chunk hchunk child hchild
    obtain ⟨parent, hp⟩ := List.mem_iff_getElem?.1 hchunk
    have hn : Nests bytecode parent child.toNat := by
      rw [Nests, childIds_of_getElem? hp]
      exact List.mem_map_of_mem hchild
    have hc := List.getElem?_eq_getElem (hrange _ _ hn)
    exact ⟨_, hc, hcapt _ _ _ _ hp hn hc⟩

/-- The walk visits every function of the graphs in which no function is nested in itself
    or too deeply, and of no others; it ends in any case. -/
theorem walkReady_start (hrange : NestedInRange bytecode)
    (h : countAll bytecode bytecode 0 (List.replicate bytecode.length 0) = .ok indegree) :
    ∃ res, (∀ fuel, bytecode.length ≤ fuel → walkReady bytecode fuel (.start indegree) = res) ∧
      (∀ w, res = .ok w → w.ready = []) ∧
      ((∃ w, res = .ok w ∧ w.visited = bytecode.length) ↔
        Graph.Acyclic (Nests bytecode) ∧ NestedShallow bytecode) := by
  obtain ⟨res, hres, hcases⟩ := (walking_start h).walk hrange
  rw [List.length_range] at hres
  refine ⟨res, hres, ?_⟩
  obtain ⟨w, left, parent, rfl, hready, hw⟩ | ⟨⟨e, rfl⟩, hdeep⟩ := hcases
  · refine ⟨fun w' hw' => by cases hw'; exact hready, ?_, fun hok => ⟨w, rfl, ?_⟩⟩
    · rintro ⟨w', hw', hall⟩
      cases hw'
      have hlen := hw.visited
      obtain rfl : left = [] := List.length_eq_zero_iff.1 (by omega)
      exact ⟨hw.acyclic, hw.shallow⟩
    · have hlen := hw.visited
      rwa [hw.left_eq_nil hready hok.1] at hlen
  · refine ⟨nofun, ?_, fun hok => absurd hdeep (not_tooDeep.2 hok.2)⟩
    rintro ⟨w, hw, -⟩
    cases hw

/-- A payload's functions are accepted when each is there, captures what it can, and is
    nested neither in itself nor too deeply. -/
theorem validateNestedGraph_eq_ok :
    validateNestedGraph bytecode = .ok () ↔
      NestedInRange bytecode ∧ Graph.Acyclic (Nests bytecode) ∧ NestedShallow bytecode ∧
        NestedCaptures bytecode := by
  rw [validateNestedGraph]
  cases hc : countAll bytecode bytecode 0 (List.replicate bytecode.length 0) with
  | error e =>
    refine ⟨nofun, fun ⟨hrange, _, _, hcapt⟩ => ?_⟩
    obtain ⟨indegree, hok⟩ := countAll_succeeds (childAdmitted_iff.2 ⟨hrange, hcapt⟩)
    rw [hc] at hok
    cases hok
  | ok indegree =>
    obtain ⟨hadm, -, -⟩ := countAll_counts List.length_replicate hc
    obtain ⟨hrange, hcapt⟩ := childAdmitted_iff.1 hadm
    obtain ⟨res, hres, -, hiff⟩ := walkReady_start hrange hc
    have hwalk := hres bytecode.length le_rfl
    refine Iff.trans ?_ (hiff.trans ⟨fun h => ⟨hrange, h.1, h.2, hcapt⟩, fun h => ⟨h.2.1, h.2.2.1⟩⟩)
    show (walkReady bytecode bytecode.length (.start indegree)).bind _ = _ ↔ _
    rw [hwalk]
    cases res with
    | error e =>
      refine ⟨nofun, ?_⟩
      rintro ⟨w, hw, -⟩
      cases hw
    | ok w =>
      by_cases hv : w.visited = bytecode.length
      · exact ⟨fun _ => ⟨w, rfl, hv⟩, fun _ => if_neg (not_not.2 hv)⟩
      · refine ⟨fun h => ?_, fun ⟨w', hw', hv'⟩ => absurd (by cases hw'; exact hv') hv⟩
        rw [Except.bind, if_pos hv] at h
        cases h

end Dellingr
