import Dellingr.Vm.SaveState.NestedGraph

/-!
# Materializing bytecode

The functions of a verified payload are built from the arena. A function holds those
nested in it, so these are built first (`buildBytecodeTree`), by a depth-first walk on
an explicit stack of functions with the next child of each. A function that was built
before is taken as it is, and one on the stack is an error: it would be nested in
itself.

The iterator of `string.gmatch` is shared: where a payload has it as this build
compiles it, the function of this process is taken (`materializeBytecode`).

On a graph that verification has accepted the walk ends, with every function built from
the functions nested in it (`materializeBytecode_eq_ok`). The argument follows the graph:
a function on top of the stack is built, and the stack below it left as it was, if this
is so of every function nested in it (`builds_of_children`).
-/

namespace Dellingr

open GmatchSchema

/-! ## The walk -/

/-- The functions built so far, those on the stack, and the stack with its top first. -/
structure Building where
  out : List (Option Bytecode)
  visiting : List Bool
  stack : List (Nat × Nat)

/-- The function built for an id. -/
def Building.chunk (s : Building) (id : Nat) : Option Bytecode := s.out[id]?.join

/-- The functions built for the ids of nested ones. -/
def nestedChunks (s : Building) : List UInt32 → Except SnapshotError (List Bytecode)
  | [] => .ok []
  | child :: children =>
    match s.chunk child.toNat with
    | none => corrupt (.notMaterialized .nestedChunk) child.toNat .bytecode
    | some chunk => do
      let chunks ← nestedChunks s children
      .ok (chunk :: chunks)

/-- The source of each function, shared between functions of the same source. -/
def internBytecodeSources (saved : List SavedBytecode) : List (Option (List UInt8)) :=
  saved.map SavedBytecode.source

/-- Build the function on top of the stack, or turn to the next one nested in it. -/
def buildStep (saved : List SavedBytecode) (s : Building) (idx cursor : Nat)
    (stack : List (Nat × Nat)) : Except SnapshotError Building :=
  match saved[idx]? with
  | none => corrupt (.idOutOfRange .bytecodeChunk) idx .bytecode
  | some src =>
    match src.nested[cursor]? with
    | some child =>
      match s.out[child.toNat]? with
      | none => corrupt (.idOutOfRange .nestedChunk) child.toNat .bytecode
      | some (some _) => .ok { s with stack := (idx, cursor + 1) :: stack }
      | some none =>
        if s.visiting.getD child.toNat false then
          corrupt .nestedChunkCycle child.toNat .bytecode
        else
          .ok { s with
            visiting := s.visiting.set child.toNat true
            stack := (child.toNat, 0) :: (idx, cursor + 1) :: stack }
    | none => do
      let nested ← nestedChunks s src.nested
      match (internBytecodeSources saved)[idx]? with
      | none => corrupt (.notMaterialized .sourceName) idx .bytecode
      | some _ =>
        .ok {
          out := s.out.set idx (some (src.build nested))
          visiting := s.visiting.set idx false
          stack }

/-- Turn after turn until the stack is empty; `none` if there are more turns than
    `fuel`. -/
def buildLoop (saved : List SavedBytecode) : Nat → Building → Option (Except SnapshotError Building)
  | fuel, s =>
    match s.stack with
    | [] => some (.ok s)
    | (idx, cursor) :: stack =>
      match fuel with
      | 0 => none
      | fuel + 1 =>
        match buildStep saved s idx cursor stack with
        | .error e => some (.error e)
        | .ok s => buildLoop saved fuel s

/-- Materialize the function of an id and everything nested under it. -/
def buildBytecodeTree (saved : List SavedBytecode) (fuel root : Nat) (s : Building) :
    Option (Except SnapshotError Building) :=
  if (s.chunk root).isSome then some (.ok s)
  else buildLoop saved fuel { s with visiting := s.visiting.set root true, stack := [(root, 0)] }

/-- Materialize the functions of the given ids in turn. -/
def buildTrees (saved : List SavedBytecode) (fuel : Nat) :
    List Nat → Building → Option (Except SnapshotError Building)
  | [], s => some (.ok s)
  | idx :: ids, s =>
    match buildBytecodeTree saved fuel idx s with
    | some (.ok s) => buildTrees saved fuel ids s
    | stop => stop

/-- The functions of closures that capture an iterator of `string.gmatch`. -/
def gmatchIteratorChunks (p : SavePayload) : List Nat :=
  p.objects.filterMap fun object =>
    match object with
    | .table .. => none
    | .closure chunk upvalues =>
      if upvalues.any fun id =>
          p.upvalues[id.toNat]? = some (.fn ITERATOR_ID) ∨
          p.upvalues[id.toNat]? = some (.fn EMPTY_ITERATOR_ID)
      then some chunk.toNat
      else none

/-- Take the shared iterator for the functions that are the iterator, which nests no
    function. -/
def shareIterators (iterator : SavedBytecode) (saved : List SavedBytecode) :
    List Nat → List (Option Bytecode) → List (Option Bytecode)
  | [], out => out
  | idx :: ids, out =>
    shareIterators iterator saved ids
      (if saved[idx]? = some { iterator with nested := [] } then
        out.set idx (some (iterator.build []))
      else out)

/-- Every function is built. -/
def materializedChunks : Nat → List (Option Bytecode) → Except SnapshotError (List Bytecode)
  | _, [] => .ok []
  | index, none :: _ => corrupt (.notMaterialized .chunk) index .bytecode
  | index, some chunk :: out => do
    let chunks ← materializedChunks (index + 1) out
    .ok (chunk :: chunks)

/-- Build the functions of a payload, in a process with the given iterator. -/
def materializeBytecode (iterator : SavedBytecode) (fuel : Nat) (p : SavePayload) :
    Option (Except SnapshotError (List Bytecode)) :=
  let saved := p.bytecode
  let start : Building := {
    out := shareIterators iterator saved (gmatchIteratorChunks p) (List.replicate saved.length none)
    visiting := List.replicate saved.length false
    stack := [] }
  (buildTrees saved fuel (List.range saved.length) start).map fun result =>
    result.bind fun s => materializedChunks 0 s.out

/-! ## What is built -/

variable {saved : List SavedBytecode} {s s' t : Building} {idx cursor : Nat} {stack : List (Nat × Nat)}

/-- The functions nested in one are built. -/
def Filled (s : Building) (children : List UInt32) (nested : List Bytecode) : Prop :=
  List.Forall₂ (fun child chunk => s.chunk child.toNat = some chunk) children nested

/-- What is built is built from the functions nested in it. -/
structure Building.Sound (saved : List SavedBytecode) (s : Building) : Prop where
  out_length : s.out.length = saved.length
  visiting_length : s.visiting.length = saved.length
  built : ∀ id chunk, s.chunk id = some chunk →
    ∃ src nested, saved[id]? = some src ∧ Filled s src.nested nested ∧ chunk = src.build nested

/-- What was built stays. -/
def Building.Extends (s t : Building) : Prop :=
  ∀ id chunk, s.chunk id = some chunk → t.chunk id = some chunk

theorem Building.Extends.trans (h : s.Extends s') (h' : s'.Extends t) : s.Extends t :=
  fun id chunk hc => h' id chunk (h id chunk hc)

theorem Filled.mono {children : List UInt32} {nested : List Bytecode} (h : Filled s children nested)
    (hext : s.Extends t) : Filled t children nested :=
  List.Forall₂.imp (fun _ _ hc => hext _ _ hc) h

theorem nestedChunks_filled {children : List UInt32}
    (h : ∀ child ∈ children, (s.chunk child.toNat).isSome) :
    ∃ nested, nestedChunks s children = .ok nested ∧ Filled s children nested := by
  induction children with
  | nil => exact ⟨[], rfl, .nil⟩
  | cons child children ih =>
    obtain ⟨hchild, hchildren⟩ := List.forall_mem_cons.1 h
    obtain ⟨chunk, hc⟩ := Option.isSome_iff_exists.1 hchild
    obtain ⟨nested, hn, hf⟩ := ih hchildren
    refine ⟨chunk :: nested, ?_, .cons hc hf⟩
    rw [nestedChunks, hc]
    simp only [hn]
    rfl

/-! ## Building one function -/

/-- The walk comes from one state to another. -/
def Leads (saved : List SavedBytecode) (s t : Building) : Prop :=
  ∃ turns, ∀ fuel, buildLoop saved (fuel + turns) s = buildLoop saved fuel t

theorem Leads.trans (h : Leads saved s s') (h' : Leads saved s' t) : Leads saved s t := by
  obtain ⟨m, hm⟩ := h
  obtain ⟨n, hn⟩ := h'
  refine ⟨n + m, fun fuel => ?_⟩
  rw [← Nat.add_assoc, hm, hn]

theorem Leads.step (hs : s.stack = (idx, cursor) :: stack)
    (h : buildStep saved s idx cursor stack = .ok t) : Leads saved s t := by
  refine ⟨1, fun fuel => ?_⟩
  rw [buildLoop]
  simp only [hs, h]

/-- A function is on the stack as visited, and is not built. -/
def Building.onStack (s : Building) (id : Nat) : Bool := s.visiting.getD id false

/-- The function `idx` is on top of the stack, to go on with the child `cursor`. -/
structure Waiting (saved : List SavedBytecode) (idx cursor : Nat) (stack : List (Nat × Nat))
    (s : Building) : Prop where
  sound : s.Sound saved
  top : s.stack = (idx, cursor) :: stack
  chunk : s.chunk idx = none
  onStack : s.onStack idx = true
  /-- Every function on the stack leads to the one on top. -/
  leads : ∀ id, s.onStack id = true → Relation.ReflTransGen (Nests saved) id idx

/-- The function `idx` was built and taken from the stack. -/
structure Done (saved : List SavedBytecode) (idx : Nat) (stack : List (Nat × Nat))
    (s t : Building) : Prop where
  leads : Leads saved s t
  sound : t.Sound saved
  grown : s.Extends t
  stack : t.stack = stack
  chunk : (t.chunk idx).isSome
  onStack : ∀ id, t.onStack id = if id = idx then false else s.onStack id
  /-- What is on the stack is not built meanwhile. -/
  kept : ∀ id, s.onStack id = true → id ≠ idx → t.chunk id = s.chunk id

/-- A function is built whenever it comes to the top of the stack. -/
def Builds (saved : List SavedBytecode) (idx : Nat) : Prop :=
  ∀ s stack, Waiting saved idx 0 stack s → ∃ t, Done saved idx stack s t

theorem chunk_set {id : Nat} {chunk : Bytecode} {visiting : List Bool} (hidx : idx < s.out.length) :
    Building.chunk ⟨s.out.set idx (some chunk), visiting, stack⟩ id =
      if id = idx then some chunk else s.chunk id := by
  rw [Building.chunk, List.getElem?_set]
  by_cases h : idx = id
  · subst h
    simp only [if_true, hidx]
    rfl
  · simp only [h, if_false, Ne.symm h]
    rfl

theorem onStack_set {id : Nat} {b : Bool} {out : List (Option Bytecode)} (hidx : idx < s.visiting.length) :
    Building.onStack ⟨out, s.visiting.set idx b, stack⟩ id = if id = idx then b else s.onStack id := by
  rw [Building.onStack, List.getD_eq_getElem?_getD, List.getElem?_set]
  by_cases h : idx = id
  · subst h
    simp only [if_true, hidx]
    rfl
  · simp only [h, if_false, Ne.symm h]
    rfl

theorem Building.Sound.lt (h : s.Sound saved) {src : SavedBytecode} (hsrc : saved[idx]? = some src) :
    idx < s.out.length ∧ idx < s.visiting.length := by
  have hlt := (List.getElem?_eq_some_iff.1 hsrc).1
  exact ⟨h.out_length ▸ hlt, h.visiting_length ▸ hlt⟩

/-- Once all functions nested in it are built, the function is built from them. -/
theorem Waiting.finish {src : SavedBytecode} (h : Waiting saved idx cursor stack s)
    (hsrc : saved[idx]? = some src) (hend : src.nested[cursor]? = none)
    (hchildren : ∀ child ∈ src.nested, (s.chunk child.toNat).isSome) :
    ∃ t, Done saved idx stack s t := by
  obtain ⟨nested, hnested, hfilled⟩ := nestedChunks_filled hchildren
  obtain ⟨hout, hvisiting⟩ := h.sound.lt hsrc
  let t : Building :=
    ⟨s.out.set idx (some (src.build nested)), s.visiting.set idx false, stack⟩
  have hchunk : ∀ id, t.chunk id = if id = idx then some (src.build nested) else s.chunk id :=
    fun id => chunk_set hout
  have hext : s.Extends t := by
    intro id chunk hc
    rw [hchunk, if_neg, hc]
    rintro rfl
    rw [h.chunk] at hc
    cases hc
  have hstep : buildStep saved s idx cursor stack = .ok t := by
    have hsource : (internBytecodeSources saved)[idx]? = some src.source := by
      rw [internBytecodeSources, List.getElem?_map, hsrc]
      rfl
    simp only [buildStep, hsrc, hend, hnested, hsource]
    rfl
  refine ⟨t, .step h.top hstep, ⟨?_, ?_, fun id chunk hc => ?_⟩, hext, rfl, ?_, fun id => ?_,
    fun id _ hne => ?_⟩
  · exact List.length_set.trans h.sound.out_length
  · exact List.length_set.trans h.sound.visiting_length
  · rw [hchunk] at hc
    split at hc
    · next heq =>
      cases hc
      exact ⟨src, nested, heq ▸ hsrc, hfilled.mono hext, rfl⟩
    · obtain ⟨src', nested', hs, hf, heq⟩ := h.sound.built id chunk hc
      exact ⟨src', nested', hs, hf.mono hext, heq⟩
  · rw [hchunk, if_pos rfl]
    rfl
  · exact onStack_set hvisiting
  · rw [hchunk, if_neg hne]

/-- Turning to a nested function that is not built. It is not on the stack, or it would be
    nested in itself. -/
theorem Waiting.descend {src : SavedBytecode} {child : UInt32} (hac : Graph.Acyclic (Nests saved))
    (h : Waiting saved idx cursor stack s) (hsrc : saved[idx]? = some src)
    (hget : src.nested[cursor]? = some child) (hnests : Nests saved idx child.toNat)
    (hnone : s.out[child.toNat]? = some none) :
    let t : Building := { s with
      visiting := s.visiting.set child.toNat true
      stack := (child.toNat, 0) :: (idx, cursor + 1) :: stack }
    s.onStack child.toNat = false ∧ child.toNat ≠ idx ∧ Leads saved s t ∧
      Waiting saved child.toNat 0 ((idx, cursor + 1) :: stack) t := by
  intro t
  have hoff : s.onStack child.toNat = false := by
    by_contra hon
    have hreach := h.leads _ (Bool.eq_true_of_not_eq_false hon)
    exact hac _ (Relation.TransGen.tail' hreach hnests)
  have hne : child.toNat ≠ idx := by
    intro heq
    rw [heq, h.onStack] at hoff
    cases hoff
  have hlt : child.toNat < s.visiting.length := by
    rw [h.sound.visiting_length, ← h.sound.out_length]
    exact (List.getElem?_eq_some_iff.1 hnone).1
  have hstep : buildStep saved s idx cursor stack = .ok t := by
    have hvis : s.visiting.getD child.toNat false = false := hoff
    simp only [buildStep, hsrc, hget, hnone, hvis]
    rfl
  have hon : ∀ id, t.onStack id = if id = child.toNat then true else s.onStack id :=
    fun id => onStack_set hlt
  refine ⟨hoff, hne, .step h.top hstep, ?_⟩
  refine ⟨⟨h.sound.out_length, List.length_set.trans h.sound.visiting_length, h.sound.built⟩, rfl,
    ?_, ?_, fun id hid => ?_⟩
  · show s.out[child.toNat]?.join = none
    rw [hnone]
    rfl
  · rw [hon, if_pos rfl]
  · rw [hon] at hid
    split at hid
    · next heq => exact heq ▸ .refl
    · exact (h.leads id hid).tail hnests

/-- A function is built if each of the functions nested in it is, whichever child is
    next. -/
theorem Waiting.builds {src : SavedBytecode} (hac : Graph.Acyclic (Nests saved))
    (hrange : NestedInRange saved) (hsrc : saved[idx]? = some src)
    (hchildren : ∀ child, Nests saved idx child → Builds saved child)
    (h : Waiting saved idx cursor stack s)
    (hbuilt : ∀ child ∈ src.nested.take cursor, (s.chunk child.toNat).isSome) :
    ∃ t, Done saved idx stack s t := by
  -- The induction is on the children that are left.
  induction hrest : src.nested.drop cursor generalizing cursor s with
  | nil =>
    have hle := List.drop_eq_nil_iff.1 hrest
    rw [List.take_of_length_le hle] at hbuilt
    exact h.finish hsrc (List.getElem?_eq_none hle) hbuilt
  | cons child rest ih =>
    have hget : src.nested[cursor]? = some child := by
      rw [← List.head?_drop, hrest]
      rfl
    have hnests : Nests saved idx child.toNat := by
      rw [Nests, childIds_of_getElem? hsrc]
      exact List.mem_map_of_mem (List.mem_of_getElem? hget)
    have hdrop : src.nested.drop (cursor + 1) = rest := by
      rw [← List.tail_drop, hrest]
      rfl
    have htake : src.nested.take (cursor + 1) = src.nested.take cursor ++ [child] := by
      rw [List.take_add_one, hget]
      rfl
    have hout : child.toNat < s.out.length := h.sound.out_length ▸ hrange _ _ hnests
    cases hc : s.out[child.toNat]? with
    | none => exact absurd hout (Nat.not_lt.2 (List.getElem?_eq_none_iff.1 hc))
    | some o =>
      cases o with
      | some chunk =>
        -- The child was built before.
        have hstep : buildStep saved s idx cursor stack =
            .ok { s with stack := (idx, cursor + 1) :: stack } := by
          simp only [buildStep, hsrc, hget, hc]
        have hchild : s.chunk child.toNat = some chunk := congrArg Option.join hc
        obtain ⟨t, ht⟩ := ih (s := { s with stack := (idx, cursor + 1) :: stack })
          ⟨⟨h.sound.out_length, h.sound.visiting_length, h.sound.built⟩, rfl, h.chunk, h.onStack,
            h.leads⟩
          (by
            intro c hmem
            rw [htake] at hmem
            obtain hmem | hmem := List.mem_append.1 hmem
            · exact hbuilt c hmem
            · exact List.mem_singleton.1 hmem ▸ Option.isSome_iff_exists.2 ⟨chunk, hchild⟩)
          hdrop
        exact ⟨t, (Leads.step h.top hstep).trans ht.leads, ht.sound, ht.grown, ht.stack, ht.chunk,
          ht.onStack, ht.kept⟩
      | none =>
        obtain ⟨hoff, hne, hleads, hwait⟩ := h.descend hac hsrc hget hnests hc
        obtain ⟨u, hu⟩ := hchildren _ hnests _ _ hwait
        have hlt : child.toNat < s.visiting.length := by
          rwa [h.sound.visiting_length, ← h.sound.out_length]
        -- The child is built and taken from the stack again.
        have hon : ∀ id, u.onStack id = s.onStack id := by
          intro id
          rw [hu.onStack, onStack_set hlt]
          split
          · next heq => exact heq ▸ hoff.symm
          · rfl
        have hkept : ∀ id, s.onStack id = true → u.chunk id = s.chunk id := by
          intro id hid
          have hidc : id ≠ child.toNat := by
            rintro rfl
            rw [hoff] at hid
            cases hid
          refine hu.kept id ?_ hidc
          rw [onStack_set hlt, if_neg hidc, hid]
        obtain ⟨t, ht⟩ := ih (s := u)
          ⟨hu.sound, hu.stack, (hkept idx h.onStack).trans h.chunk, (hon idx).trans h.onStack,
            fun id hid => h.leads id (hon id ▸ hid)⟩
          (by
            intro c hmem
            rw [htake] at hmem
            obtain hmem | hmem := List.mem_append.1 hmem
            · obtain ⟨chunk, hchunk⟩ := Option.isSome_iff_exists.1 (hbuilt c hmem)
              exact Option.isSome_iff_exists.2 ⟨chunk, hu.grown _ _ hchunk⟩
            · exact List.mem_singleton.1 hmem ▸ hu.chunk)
          hdrop
        refine ⟨t, hleads.trans (hu.leads.trans ht.leads), ht.sound, hu.grown.trans ht.grown, ht.stack,
          ht.chunk, fun id => (ht.onStack id).trans (by rw [hon]), fun id hid hidx => ?_⟩
        exact (ht.kept id (hon id ▸ hid) hidx).trans (hkept id hid)

/-- On an acyclic graph every function is built. -/
theorem builds_of_acyclic (hac : Graph.Acyclic (Nests saved)) (hrange : NestedInRange saved)
    (hidx : idx < saved.length) : Builds saved idx := by
  refine hac.induction (s := {id | id < saved.length}) (Set.finite_lt_nat _)
    (fun m _ n hmn => hrange m n hmn) (fun m hm hchildren => ?_) idx hidx
  intro s stack h
  exact h.builds hac hrange (List.getElem?_eq_getElem hm) hchildren nofun

/-! ## Building all functions -/

/-- No function is on the stack. -/
def Building.Idle (saved : List SavedBytecode) (s : Building) : Prop :=
  s.Sound saved ∧ s.stack = [] ∧ ∀ id, s.onStack id = false

/-- With enough turns a function and all nested under it are built. -/
theorem buildBytecodeTree_builds (hac : Graph.Acyclic (Nests saved)) (hrange : NestedInRange saved)
    (hidx : idx < saved.length) (h : s.Idle saved) :
    ∃ t turns, (∀ fuel, turns ≤ fuel → buildBytecodeTree saved fuel idx s = some (.ok t)) ∧
      t.Idle saved ∧ s.Extends t ∧ (t.chunk idx).isSome := by
  obtain ⟨hsound, hstack, hoff⟩ := h
  cases hc : s.chunk idx with
  | some chunk =>
    refine ⟨s, 0, fun fuel _ => ?_, ⟨hsound, hstack, hoff⟩, fun _ _ hc => hc, hc ▸ rfl⟩
    rw [buildBytecodeTree, hc]
    rfl
  | none =>
    let u : Building := { s with visiting := s.visiting.set idx true, stack := [(idx, 0)] }
    have hon : ∀ id, u.onStack id = if id = idx then true else s.onStack id :=
      fun id => onStack_set (hsound.visiting_length ▸ hidx)
    have hwait : Waiting saved idx 0 [] u := by
      refine ⟨⟨hsound.out_length, List.length_set.trans hsound.visiting_length, hsound.built⟩, rfl, hc,
        ?_, fun id hid => ?_⟩
      · rw [hon, if_pos rfl]
      · rw [hon, hoff] at hid
        split at hid
        · next heq => exact heq ▸ .refl
        · cases hid
    obtain ⟨t, ht⟩ := builds_of_acyclic hac hrange hidx u [] hwait
    obtain ⟨turns, hturns⟩ := ht.leads
    refine ⟨t, turns, fun fuel hle => ?_, ⟨ht.sound, ht.stack, fun id => ?_⟩, ht.grown, ht.chunk⟩
    · obtain ⟨k, rfl⟩ := Nat.exists_eq_add_of_le' hle
      rw [buildBytecodeTree, hc]
      refine (hturns k).trans ?_
      rw [buildLoop]
      simp only [ht.stack]
    · rw [ht.onStack, hon, hoff]
      split <;> rfl

theorem buildTrees_builds (hac : Graph.Acyclic (Nests saved)) (hrange : NestedInRange saved)
    {ids : List Nat} (hids : ∀ id ∈ ids, id < saved.length) (h : s.Idle saved) :
    ∃ t turns, (∀ fuel, turns ≤ fuel → buildTrees saved fuel ids s = some (.ok t)) ∧
      t.Idle saved ∧ s.Extends t ∧ ∀ id ∈ ids, (t.chunk id).isSome := by
  induction ids generalizing s with
  | nil => exact ⟨s, 0, fun _ _ => rfl, h, fun _ _ hc => hc, List.forall_mem_nil _⟩
  | cons id ids ih =>
    obtain ⟨hid, hids⟩ := List.forall_mem_cons.1 hids
    obtain ⟨u, m, hm, hu, hext, hchunk⟩ := buildBytecodeTree_builds hac hrange hid h
    obtain ⟨t, n, hn, ht, hext', hchunks⟩ := ih hids hu
    refine ⟨t, max m n, fun fuel hle => ?_, ht, hext.trans hext', List.forall_mem_cons.2 ⟨?_, hchunks⟩⟩
    · rw [buildTrees, hm fuel ((le_max_left _ _).trans hle)]
      exact hn fuel ((le_max_right _ _).trans hle)
    · obtain ⟨chunk, hc⟩ := Option.isSome_iff_exists.1 hchunk
      exact Option.isSome_iff_exists.2 ⟨chunk, hext' _ _ hc⟩

/-- Only functions that are the iterator are taken from this process. -/
def OnlyIterators (iterator : SavedBytecode) (saved : List SavedBytecode)
    (out : List (Option Bytecode)) : Prop :=
  ∀ (id : Nat) (chunk : Bytecode), out[id]? = some (some chunk) →
    saved[id]? = some { iterator with nested := [] } ∧ chunk = iterator.build []

theorem OnlyIterators.share {iterator : SavedBytecode} (ids : List Nat) {out : List (Option Bytecode)}
    (h : OnlyIterators iterator saved out) :
    (shareIterators iterator saved ids out).length = out.length ∧
      OnlyIterators iterator saved (shareIterators iterator saved ids out) := by
  induction ids generalizing out with
  | nil => exact ⟨rfl, h⟩
  | cons id ids ih =>
    rw [shareIterators]
    split
    · next heq =>
      have hset : OnlyIterators iterator saved (out.set id (some (iterator.build []))) := by
        intro j chunk hj
        rw [List.getElem?_set] at hj
        split at hj
        · next hij =>
          split at hj
          · cases hj
            exact ⟨hij ▸ heq, rfl⟩
          · cases hj
        · exact h j chunk hj
      obtain ⟨hlen, hshare⟩ := ih hset
      exact ⟨hlen.trans List.length_set, hshare⟩
    · exact ih h

/-- The shared iterator is what would be built. -/
theorem idle_start (iterator : SavedBytecode) (ids : List Nat) :
    Building.Idle saved ⟨shareIterators iterator saved ids (List.replicate saved.length none),
      List.replicate saved.length false, []⟩ := by
  have hnone : OnlyIterators iterator saved (List.replicate saved.length none) := by
    intro id chunk hc
    rw [List.getElem?_replicate] at hc
    split at hc <;> cases hc
  obtain ⟨hlen, hshare⟩ := hnone.share ids
  refine ⟨⟨hlen.trans List.length_replicate, List.length_replicate, fun id chunk hc => ?_⟩, rfl,
    fun id => ?_⟩
  · obtain ⟨hsaved, rfl⟩ := hshare id chunk (Option.join_eq_some_iff.1 hc)
    exact ⟨_, [], hsaved, .nil, rfl⟩
  · rw [Building.onStack, List.getD_eq_getElem?_getD, List.getElem?_replicate]
    split <;> rfl

theorem materializedChunks_eq_ok (index : Nat) {out : List (Option Bytecode)}
    (h : ∀ o ∈ out, o.isSome) :
    ∃ chunks, materializedChunks index out = .ok chunks ∧ out = chunks.map some := by
  induction out generalizing index with
  | nil => exact ⟨[], rfl, rfl⟩
  | cons o out ih =>
    obtain ⟨ho, hout⟩ := List.forall_mem_cons.1 h
    obtain ⟨chunk, rfl⟩ := Option.isSome_iff_exists.1 ho
    obtain ⟨chunks, hok, rfl⟩ := ih (index + 1) hout
    refine ⟨chunk :: chunks, ?_, rfl⟩
    rw [materializedChunks, hok]
    rfl

/-- The functions of an arena, each built from the functions nested in it. -/
def Materialized (saved : List SavedBytecode) (chunks : List Bytecode) : Prop :=
  chunks.length = saved.length ∧ ∀ (id : Nat) (src : SavedBytecode), saved[id]? = some src →
    ∃ nested, List.Forall₂ (fun (child : UInt32) chunk => chunks[child.toNat]? = some chunk) src.nested
      nested ∧ chunks[id]? = some (src.build nested)

/-- On an acyclic graph all functions are built, given enough turns. -/
theorem materializeBytecode_eq_ok {p : SavePayload} (hac : Graph.Acyclic (Nests p.bytecode))
    (hrange : NestedInRange p.bytecode) (iterator : SavedBytecode) :
    ∃ chunks turns,
      (∀ fuel, turns ≤ fuel → materializeBytecode iterator fuel p = some (.ok chunks)) ∧
      Materialized p.bytecode chunks := by
  obtain ⟨t, turns, hturns, ⟨hsound, -, -⟩, -, hall⟩ := buildTrees_builds hac hrange
    (fun _ => List.mem_range.1) (idle_start iterator (gmatchIteratorChunks p))
  have hsome : ∀ o ∈ t.out, o.isSome := by
    intro o ho
    obtain ⟨id, hid⟩ := List.mem_iff_getElem?.1 ho
    have hlt := (List.getElem?_eq_some_iff.1 hid).1
    have hc := hall id (List.mem_range.2 (hsound.out_length ▸ hlt))
    rwa [Building.chunk, hid] at hc
  obtain ⟨chunks, hchunks, hout⟩ := materializedChunks_eq_ok 0 hsome
  have hget : ∀ id, t.chunk id = chunks[id]? := by
    intro id
    rw [Building.chunk, hout, List.getElem?_map]
    cases chunks[id]? <;> rfl
  refine ⟨chunks, turns, fun fuel hle => ?_, ?_, fun id src hsrc => ?_⟩
  · rw [materializeBytecode]
    simp only [hturns fuel hle]
    exact congrArg some hchunks
  · rw [← hsound.out_length, hout, List.length_map]
  · obtain ⟨chunk, hc⟩ := Option.isSome_iff_exists.1
      (hall id (List.mem_range.2 (List.getElem?_eq_some_iff.1 hsrc).1))
    obtain ⟨src', nested, hsrc', hfilled, rfl⟩ := hsound.built id chunk hc
    rw [hsrc] at hsrc'
    cases hsrc'
    exact ⟨nested, List.Forall₂.imp (fun child chunk h => (hget _).symm.trans h) hfilled,
      (hget id).symm.trans hc⟩

/-! ## Nested functions of a payload -/

/-- Verification accepts the graph of nested functions exactly if each is there and captures
    what it can, none is nested in itself, and no path is too long. The walk ends on
    every graph, with no function left to visit or at the first one too deep. Of an
    accepted payload every function is then built. -/
theorem nested_graph_exact (p : SavePayload) (iterator : SavedBytecode) :
    (validateNestedGraph p.bytecode = .ok () ↔
      NestedInRange p.bytecode ∧ Graph.Acyclic (Nests p.bytecode) ∧ NestedShallow p.bytecode ∧
        NestedCaptures p.bytecode) ∧
    (∀ indegree,
      countAll p.bytecode p.bytecode 0 (List.replicate p.bytecode.length 0) = .ok indegree →
      ∃ res, (∀ fuel, p.bytecode.length ≤ fuel →
          walkReady p.bytecode fuel (.start indegree) = res) ∧
        ∀ w, res = .ok w → w.ready = []) ∧
    (validateNestedGraph p.bytecode = .ok () → ∃ chunks turns,
      (∀ fuel, turns ≤ fuel → materializeBytecode iterator fuel p = some (.ok chunks)) ∧
      Materialized p.bytecode chunks) := by
  refine ⟨validateNestedGraph_eq_ok, fun indegree hcount => ?_, fun hok => ?_⟩
  · obtain ⟨hadm, -, -⟩ := countAll_counts List.length_replicate hcount
    obtain ⟨res, hres, hready, -⟩ := walkReady_start (childAdmitted_iff.1 hadm).1 hcount
    exact ⟨res, hres, hready⟩
  · obtain ⟨hrange, hac, -, -⟩ := validateNestedGraph_eq_ok.1 hok
    exact materializeBytecode_eq_ok hac hrange iterator

/-- A function without instructions. -/
def bareBytecode (nested : List UInt32) (upvalues : List SavedUpvalueDesc) : SavedBytecode where
  code := []
  numberLiterals := []
  stringLiterals := []
  tableTemplates := []
  globalCacheSlots := 0
  fieldCacheSlots := 0
  setFieldCacheSlots := 0
  tforCursorSlots := 0
  numParams := 0
  numLocals := 0
  maxStack := 0
  nested := nested
  upvalues := upvalues
  isVararg := false
  name := none
  definedLine := 0
  source := none
  lineInfo := []

/-- A function without locals, and one nested in it that captures a local. -/
def strayCapture : List SavedBytecode := [bareBytecode [1] [], bareBytecode [] [.local 0]]

theorem nests_strayCapture {m n : Nat} (h : Nests strayCapture m n) : m = 0 ∧ n = 1 := by
  match m with
  | 0 => exact ⟨rfl, List.mem_singleton.1 h⟩
  | 1 => cases h
  | m + 2 => cases h

/-- The graph of two functions, one nested in the other, is refused when the nested one
    captures a variable that is not there. -/
theorem strayCapture_refused :
    NestedInRange strayCapture ∧ Graph.Acyclic (Nests strayCapture) ∧ NestedShallow strayCapture ∧
      validateNestedGraph strayCapture = .error (.invalidBytecode 0 none (.validation .childUpvalueInvalid)) := by
  let rank : Nat → Nat := fun n => if n = 0 then 0 else 1
  have hrank : ∀ m n, Nests strayCapture m n → rank m < rank n := by
    intro m n h
    obtain ⟨rfl, rfl⟩ := nests_strayCapture h
    decide
  have hbound : ∀ n, rank n ≤ 1 := by
    intro n
    show (if n = 0 then 0 else 1) ≤ 1
    split <;> decide
  refine ⟨fun m n h => ?_, .of_rank rank hrank, fun path hpath => ?_, rfl⟩
  · obtain ⟨-, rfl⟩ := nests_strayCapture h
    decide
  · cases path with
    | nil => exact Nat.zero_le _
    | cons n path =>
      have hle := Graph.length_le_of_rank hrank hbound hpath
      have hmax : 2 ≤ MAX_CHUNK_NESTING := by decide
      rw [List.length_cons]
      omega

end Dellingr
