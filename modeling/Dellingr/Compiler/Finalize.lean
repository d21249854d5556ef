import Mathlib.Data.List.Forall2
import Dellingr.Compiler.CacheSlots

/-!
# Finalizing compiled functions

What the compiler does with a freshly parsed tree of functions before it ships
(`finalizeAtDepth`): the depth of nesting is checked, the cache slots of each function are
assigned, and each function passes the verifier, also against the one that encloses it.

* `finalizeAtDepth_sound`: a tree that was finalized is admitted to execution, and what
  finalization changed are cache operands and counts only;
* `finalizeAtDepth_refuses`: cache slots are never the reason for a refusal.

A tree owns the functions nested in it, so none of them is found to be shared. Names are
left out with the other data that only diagnostics read.
-/

namespace Dellingr

/-- Why a tree was not finalized. -/
inductive FinalizeError
  | validation (error : BytecodeValidationError)
  | lineInfoDesynced
  deriving DecidableEq, Repr

/-- A check of the verifier. -/
def validated (v : Validation Unit) : Except FinalizeError Unit := v.mapError .validation

/-- The function with other nested functions. -/
def Bytecode.withNested (bc : Bytecode) (nested : List Bytecode) : Bytecode := { bc with nested }

/-- Finalize a function, apart from the functions nested in it. -/
def finalizeNode (depth : Nat) (bc : Bytecode) : Except FinalizeError Bytecode := do
  validated (validateDepth depth)
  if bc.code.length ≠ bc.lineInfo.length then throw .lineInfoDesynced
  validated (validateBytecode bc.assignCacheSlots)
  validated (bc.nested.forM (validateChild bc.assignCacheSlots))
  return bc.assignCacheSlots

mutual

/-- Finalize a function and the functions nested in it. -/
def finalizeAtDepth (depth : Nat) : Bytecode → Except FinalizeError Bytecode
  | bc@⟨_, _, _, _, _, _, _, _, _, _, _, nested, _, _, _⟩ => do
    let done ← finalizeNode depth bc
    let nested ← finalizeNested (depth + 1) nested
    return done.withNested nested

def finalizeNested (depth : Nat) : List Bytecode → Except FinalizeError (List Bytecode)
  | [] => return []
  | child :: rest => do
    let child ← finalizeAtDepth depth child
    let rest ← finalizeNested depth rest
    return child :: rest

end

/-- Finalize the tree of a program. -/
def finalize (bc : Bytecode) : Except FinalizeError Bytecode := finalizeAtDepth 1 bc

/-! ## Trees -/

/-- Induction over a function and those nested in it. -/
theorem Bytecode.induction {P : Bytecode → Prop}
    (h : ∀ bc : Bytecode, (∀ c ∈ bc.nested, P c) → P bc) (bc : Bytecode) : P bc :=
  @Bytecode.rec P (fun l => ∀ c ∈ l, P c)
    (fun _ _ _ _ _ _ _ _ _ _ _ _ _ _ _ ih => h _ ih)
    (fun _ hc => absurd hc List.not_mem_nil)
    (fun _ _ hhead htail _ hc => (List.mem_cons.1 hc).elim (fun he => he ▸ hhead) (htail _)) bc

section Checks

variable {bc : Bytecode} {nested : List Bytecode}

/-- The verifier reads of the nested functions of a function only how many there are. -/
theorem checkPool_nested (h : nested.length = bc.nested.length) :
    checkPool { bc with nested } = checkPool bc := by
  funext pc inst
  rw [checkPool, checkPool, h]

theorem checkOperands_nested (h : nested.length = bc.nested.length) :
    checkOperands { bc with nested } = checkOperands bc := by
  have hpool := checkPool_nested h
  have harith : checkArith { bc with nested } = checkArith bc := by
    funext pc inst operands
    cases operands <;> simp only [checkArith, hpool] <;> rfl
  funext pc inst op slots
  cases op <;> simp only [checkOperands, hpool, harith] <;> rfl

theorem checkCode_nested (h : nested.length = bc.nested.length) (targeted : List Bool)
    (code : List Instr) (pc : Nat) (slots : SlotCursors) :
    checkCode { bc with nested } targeted code pc slots = checkCode bc targeted code pc slots := by
  induction code generalizing pc slots with
  | nil => rfl
  | cons inst code ih =>
    have hinst : checkInstr { bc with nested } targeted slots inst pc =
        checkInstr bc targeted slots inst pc := by
      simp only [checkInstr, checkOperands_nested h]
      rfl
    simp only [checkCode, hinst, ih]

theorem checkTemplates_nested (templates : List (List Nat)) (index : Nat) :
    checkTemplates { bc with nested } templates index = checkTemplates bc templates index := by
  have htemplate : ∀ (index : Nat) (keys : List Nat) (seen : List (List UInt8)),
      checkTemplate { bc with nested } index keys seen = checkTemplate bc index keys seen := by
    intro index keys seen
    induction keys generalizing seen with
    | nil => rfl
    | cons key keys ih => simp only [checkTemplate, ih]
  induction templates generalizing index with
  | nil => rfl
  | cons template templates ih => simp only [checkTemplates, htemplate, ih]

theorem validateBytecode_nested (h : nested.length = bc.nested.length) :
    validateBytecode { bc with nested } = validateBytecode bc := by
  simp only [validateBytecode, checkHeader, checkTemplates_nested, checkCode_nested h, h]
  rfl

end Checks

/-! ## One function -/

section Node

variable {bc done : Bytecode} {depth : Nat} {v : Validation Unit} {e : FinalizeError}

/-- A run of one check after another that gives a value is a run of each. -/
theorem finalize_bind_eq_ok {α β : Type} {x : Except FinalizeError α}
    {f : α → Except FinalizeError β} {b : β} :
    (x >>= f) = .ok b ↔ ∃ a, x = .ok a ∧ f a = .ok b := by
  cases x with
  | ok a => simp [Bind.bind, Except.bind]
  | error e => simp [Bind.bind, Except.bind]

theorem finalize_bind_eq_error {α β : Type} {x : Except FinalizeError α}
    {f : α → Except FinalizeError β} :
    (x >>= f) = .error e ↔ x = .error e ∨ ∃ a, x = .ok a ∧ f a = .error e := by
  cases x with
  | ok a => simp [Bind.bind, Except.bind]
  | error e => simp [Bind.bind, Except.bind]

theorem validated_eq_ok {u : Unit} : validated v = .ok u ↔ v = .ok () := by
  cases v with
  | ok u => simp [validated, Except.mapError]
  | error e => simp [validated, Except.mapError]

theorem validated_eq_error : validated v = .error e ↔ ∃ e', v = .error e' ∧ .validation e' = e := by
  cases v with
  | ok u => simp [validated, Except.mapError]
  | error e' => simp [validated, Except.mapError]

theorem forM_eq_ok {α : Type} {l : List α} {f : α → Validation Unit} :
    l.forM f = .ok () ↔ ∀ a ∈ l, f a = .ok () := by
  induction l with
  | nil => simp [List.forM, pure, Except.pure]
  | cons a l ih =>
    rw [List.forM, bind_eq_ok, List.forall_mem_cons]
    constructor
    · rintro ⟨u, ha, hl⟩
      exact ⟨ha, ih.1 hl⟩
    · rintro ⟨ha, hl⟩
      exact ⟨(), ha, ih.2 hl⟩

theorem validateChild_eq_ok {parent child : Bytecode} :
    validateChild parent child = .ok () ↔ ∀ desc ∈ child.upvalues, desc.validIn parent :=
  ensure_eq_ok

/-- What a function was found to be when it was finalized. -/
structure NodeOk (depth : Nat) (bc : Bytecode) : Prop where
  depth : depth ≤ MAX_CHUNK_NESTING
  lines : bc.code.length = bc.lineInfo.length
  valid : validateBytecode bc.assignCacheSlots = .ok ()
  children : ∀ c ∈ bc.nested, ∀ desc ∈ c.upvalues, desc.validIn bc.assignCacheSlots

theorem finalizeNode_eq_ok :
    finalizeNode depth bc = .ok done ↔ NodeOk depth bc ∧ done = bc.assignCacheSlots := by
  simp only [finalizeNode, finalize_bind_eq_ok, validated_eq_ok, validateDepth, ensure_eq_ok]
  constructor
  · rintro ⟨_, hdepth, h⟩
    split at h
    · obtain ⟨_, h, -⟩ := finalize_bind_eq_ok.1 h
      cases h
    · rename_i hlines
      simp only [finalize_bind_eq_ok, validated_eq_ok, forM_eq_ok, validateChild_eq_ok] at h
      obtain ⟨_, hvalid, _, hchildren, ⟨⟩⟩ := h
      exact ⟨⟨hdepth, not_not.1 hlines, hvalid, hchildren⟩, rfl⟩
  · rintro ⟨h, rfl⟩
    refine ⟨(), h.depth, ?_⟩
    rw [if_neg (not_not.2 h.lines)]
    simp only [finalize_bind_eq_ok, validated_eq_ok, forM_eq_ok, validateChild_eq_ok]
    exact ⟨(), h.valid, (), h.children, rfl⟩

/-- A function is not refused for its cache slots. -/
theorem finalizeNode_eq_error {error : BytecodeValidationError}
    (h : finalizeNode depth bc = .error (.validation error)) : ¬error.reason.IsCachePolicy := by
  have hensure : ∀ {p : Prop} [Decidable p] {reason : ValidationReason},
      ¬reason.IsCachePolicy → Uncached (ensure p reason) := by
    intro p _ reason hr e he
    rw [ensure] at he
    split at he
    · cases he
    · cases he
      exact hr
  have hchildren : ∀ (l : List Bytecode) (parent : Bytecode),
      Uncached (l.forM (validateChild parent)) := by
    intro l parent
    induction l with
    | nil =>
      intro e he
      cases he
    | cons c l ih => exact uncached_bind (hensure id) fun _ => ih
  have hvalidated : ∀ {v : Validation Unit}, Uncached v →
      validated v = .error (.validation error) → ¬error.reason.IsCachePolicy := by
    intro v hv hve
    obtain ⟨e, he, hee⟩ := validated_eq_error.1 hve
    cases hee
    exact hv _ he
  rw [finalizeNode] at h
  rcases finalize_bind_eq_error.1 h with h | ⟨_, -, h⟩
  · exact hvalidated (hensure id) h
  · split at h
    · rcases finalize_bind_eq_error.1 h with h | ⟨_, h, -⟩ <;> cases h
    · rcases finalize_bind_eq_error.1 h with h | ⟨_, -, h⟩
      · exact hvalidated (uncached_of_slotPolicy (slotPolicy_assign bc)) h
      · rcases finalize_bind_eq_error.1 h with h | ⟨_, -, h⟩
        · exact hvalidated (hchildren _ _) h
        · cases h

end Node

/-! ## The tree -/

/-- A tree with other cache operands and counts. -/
inductive Recached : Bytecode → Bytecode → Prop
  | mk {bc bc' : Bytecode} (code : bc'.code.map Instr.clearCache = bc.code.map Instr.clearCache)
      (rest : bc' = { bc with
        code := bc'.code
        globalCacheSlots := bc'.globalCacheSlots
        fieldCacheSlots := bc'.fieldCacheSlots
        setFieldCacheSlots := bc'.setFieldCacheSlots
        tforCursorSlots := bc'.tforCursorSlots
        nested := bc'.nested })
      (nested : List.Forall₂ Recached bc.nested bc'.nested) : Recached bc bc'

section Tree

variable {bc bc' : Bytecode} {l l' : List Bytecode} {depth : Nat}

theorem finalizeAtDepth_eq (depth : Nat) (bc : Bytecode) :
    finalizeAtDepth depth bc = (do
      let done ← finalizeNode depth bc
      let nested ← finalizeNested (depth + 1) bc.nested
      return done.withNested nested) := by
  cases bc
  rfl

theorem finalizeNested_eq_ok :
    finalizeNested depth l = .ok l' ↔
      List.Forall₂ (fun c c' => finalizeAtDepth depth c = .ok c') l l' := by
  induction l generalizing l' with
  | nil =>
    constructor
    · rintro ⟨⟩
      exact .nil
    · intro h
      cases h
      rfl
  | cons c l ih =>
    rw [finalizeNested, finalize_bind_eq_ok]
    constructor
    · rintro ⟨c', hc, h⟩
      obtain ⟨rest, hrest, ⟨⟩⟩ := finalize_bind_eq_ok.1 h
      exact .cons hc (ih.1 hrest)
    · intro h
      cases h with
      | cons hc hrest =>
        exact ⟨_, hc, finalize_bind_eq_ok.2 ⟨_, ih.2 hrest, rfl⟩⟩

theorem finalizeAtDepth_eq_ok :
    finalizeAtDepth depth bc = .ok bc' ↔ NodeOk depth bc ∧ ∃ nested,
      List.Forall₂ (fun c c' => finalizeAtDepth (depth + 1) c = .ok c') bc.nested nested ∧
        bc' = (bc.assignCacheSlots.withNested nested) := by
  rw [finalizeAtDepth_eq, finalize_bind_eq_ok]
  constructor
  · rintro ⟨done, hdone, h⟩
    obtain ⟨hok, rfl⟩ := finalizeNode_eq_ok.1 hdone
    obtain ⟨nested, hnested, ⟨⟩⟩ := finalize_bind_eq_ok.1 h
    exact ⟨hok, nested, finalizeNested_eq_ok.1 hnested, rfl⟩
  · rintro ⟨hok, nested, hnested, rfl⟩
    exact ⟨_, finalizeNode_eq_ok.2 ⟨hok, rfl⟩,
      finalize_bind_eq_ok.2 ⟨nested, finalizeNested_eq_ok.2 hnested, rfl⟩⟩

/-- A finalized function captures what it captured. -/
theorem upvalues_of_finalize (h : finalizeAtDepth depth bc = .ok bc') :
    bc'.upvalues = bc.upvalues := by
  obtain ⟨-, nested, -, rfl⟩ := finalizeAtDepth_eq_ok.1 h
  rfl

/-- The functions nested in a finalized one are finalized. -/
theorem forall_of_finalize {P : Bytecode → Prop} {nested : List Bytecode}
    (h : List.Forall₂ (fun c c' => finalizeAtDepth depth c = .ok c') l nested)
    (hP : ∀ c ∈ l, ∀ c', finalizeAtDepth depth c = .ok c' → P c') : ∀ c' ∈ nested, P c' := by
  induction h with
  | nil => exact fun _ hc => absurd hc List.not_mem_nil
  | cons hc _ ih =>
    rw [List.forall_mem_cons]
    exact ⟨hP _ List.mem_cons_self _ hc,
      ih fun c hmem => hP c (List.mem_cons_of_mem _ hmem)⟩

/-- What a nested function captures is there in the finalized function as it was before. -/
theorem validIn_nested {nested : List Bytecode} {desc : UpvalueDesc} :
    desc.validIn (bc.withNested nested) ↔ desc.validIn bc := by
  cases desc <;> exact Iff.rfl

/-- A finalized function is found to be in order again. -/
theorem NodeOk.finalized (h : NodeOk depth bc) {nested : List Bytecode}
    (hlen : nested.length = bc.nested.length)
    (hup : ∀ c' ∈ nested, ∃ c ∈ bc.nested, c'.upvalues = c.upvalues) :
    NodeOk depth (bc.assignCacheSlots.withNested nested) ∧
      (bc.assignCacheSlots.withNested nested).assignCacheSlots =
        (bc.assignCacheSlots.withNested nested) := by
  have hassign : (bc.assignCacheSlots.withNested nested).assignCacheSlots =
      (bc.assignCacheSlots.withNested nested) := by
    have hagain : (bc.assignCacheSlots.withNested nested).assignCacheSlots =
        bc.assignCacheSlots.assignCacheSlots.withNested nested := rfl
    rw [hagain, assign_assign]
  refine ⟨⟨h.depth, ?_, ?_, fun c' hc' desc hdesc => ?_⟩, hassign⟩
  · have hcode : (assignCode bc.code (.start bc)).1.length = bc.code.length := by
      simpa using congrArg List.length (@clearCache_assignCode (.start bc) bc.code)
    exact hcode.trans h.lines
  · rw [hassign]
    exact (@validateBytecode_nested bc.assignCacheSlots nested hlen).trans h.valid
  · obtain ⟨c, hc, hcaptures⟩ := hup c' hc'
    rw [hassign, validIn_nested]
    exact h.children c hc desc (hcaptures ▸ hdesc)

/-- A finalized tree is admitted to execution and finalized already, and finalization
    changed cache operands and counts only. -/
theorem finalizeAtDepth_sound (bc : Bytecode) : ∀ depth bc', finalizeAtDepth depth bc = .ok bc' →
    Admitted bc' ∧ Recached bc bc' ∧ finalizeAtDepth depth bc' = .ok bc' := by
  induction bc using Bytecode.induction with
  | h bc ih =>
    intro depth bc' hrun
    obtain ⟨hok, nested, hnested, rfl⟩ := finalizeAtDepth_eq_ok.1 hrun
    have hup : ∀ c' ∈ nested, ∃ c ∈ bc.nested, c'.upvalues = c.upvalues := by
      refine forall_of_finalize hnested fun c hc c' hrun' => ?_
      exact ⟨c, hc, upvalues_of_finalize hrun'⟩
    obtain ⟨hagain, hassign⟩ := hok.finalized hnested.length_eq.symm hup
    refine ⟨⟨?_, fun c' hc' => ?_, forall_of_finalize hnested fun c hc c' hrun' =>
      (ih c hc _ _ hrun').1⟩, ⟨clearCache_assignCode, rfl, ?_⟩, ?_⟩
    · rw [← hassign]
      exact hagain.valid
    · rw [validateChild_eq_ok, ← hassign]
      exact hagain.children c' hc'
    · have hmem : ∀ c ∈ bc.nested, ∀ c', finalizeAtDepth (depth + 1) c = .ok c' →
          Recached c c' := fun c hc c' hrun' => (ih c hc _ _ hrun').2.1
      clear hagain hassign hup hrun hok ih
      show List.Forall₂ Recached bc.nested nested
      generalize bc.nested = l at hnested hmem
      induction hnested with
      | nil => exact .nil
      | cons hc _ ih =>
        exact .cons (hmem _ List.mem_cons_self _ hc)
          (ih fun c hmem' => hmem c (List.mem_cons_of_mem _ hmem'))
    · refine finalizeAtDepth_eq_ok.2 ⟨hagain, nested, ?_, by rw [hassign]; rfl⟩
      have hfix := forall_of_finalize hnested fun c hc c' hrun' => (ih c hc _ _ hrun').2.2
      show List.Forall₂ _ nested nested
      exact List.forall₂_same.2 hfix

/-- No function of a tree is refused for its cache slots. -/
theorem finalizeAtDepth_refuses (bc : Bytecode) : ∀ depth error,
    finalizeAtDepth depth bc = .error (.validation error) → ¬error.reason.IsCachePolicy := by
  induction bc using Bytecode.induction with
  | h bc ih =>
    intro depth error hrun
    rw [finalizeAtDepth_eq] at hrun
    rcases finalize_bind_eq_error.1 hrun with hnode | ⟨done, -, hrest⟩
    · exact finalizeNode_eq_error hnode
    · rcases finalize_bind_eq_error.1 hrest with hnested | ⟨_, -, hpure⟩
      · clear hrun hrest
        generalize bc.nested = l at hnested ih
        induction l with
        | nil => cases hnested
        | cons c l ihl =>
          rw [finalizeNested] at hnested
          rcases finalize_bind_eq_error.1 hnested with hc | ⟨_, -, hl⟩
          · exact ih c List.mem_cons_self _ _ hc
          · rcases finalize_bind_eq_error.1 hl with hl | ⟨_, -, hpure⟩
            · exact ihl hl fun c hc => ih c (List.mem_cons_of_mem _ hc)
            · cases hpure
      · cases hpure

end Tree

/-- A function that returns its varargs, nested in one that returns a closure of it. -/
def closureChunk : Bytecode where
  code := [.pack .closure 0 0 0 0, .pack .ret 0 1 0 0]
  maxStack := 1
  lineInfo := [1, 1]
  nested := [{
    code := [.pack .vararg 0 65535 0 0, .pack .ret 0 65535 0 0]
    maxStack := 1
    isVararg := true
    lineInfo := [1, 1] }]

example : (finalize closureChunk).toOption.map (·.nested.length) = some 1 := by decide

end Dellingr
