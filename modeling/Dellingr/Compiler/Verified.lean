import Dellingr.Compiler.Verify

/-!
# What verification establishes

The facts that execution relies on, read off a successful run of the verifier:

* `verifiedAt`: every instruction of a verified function decodes, its operands
  are in range (`Opcode.OperandsOk`), its jump target lies in the code and is
  not an open consumer, an open producer is followed by a fitting consumer, and
  an open consumer follows a producer;
* `headerOk`: the frame has room for the parameters and locals, the code ends
  in a return, and a template names string literals only.

The cache slots are the one thing that is checked across instructions. Their
cursors only grow (`SlotCursors.Le`), so that the final counts, which must equal
the declared ones, bound every slot taken on the way.
-/

namespace Dellingr

/-! ## Reading off a check -/

section Checks

variable {α β : Type} {pc : Nat} {p : Prop} [Decidable p] {reason : ValidationReason}

@[simp] theorem bind_eq_ok {x : Validation α} {f : α → Validation β} {b : β} :
    (x >>= f) = .ok b ↔ ∃ a, x = .ok a ∧ f a = .ok b := by
  cases x with
  | ok a => simp [Bind.bind, Except.bind]
  | error e => simp [Bind.bind, Except.bind]

@[simp] theorem map_eq_ok {x : Validation α} {f : α → β} {b : β} :
    (f <$> x) = .ok b ↔ ∃ a, x = .ok a ∧ f a = b := by
  cases x with
  | ok a => simp [Functor.map, Except.map]
  | error e => simp [Functor.map, Except.map]

@[simp] theorem rejectAt_ne_ok {a : α} : rejectAt pc reason ≠ .ok a := by simp [rejectAt]

@[simp] theorem reject_ne_ok {a : α} : reject reason ≠ .ok a := by simp [reject]

@[simp] theorem ensureAt_eq_ok {u : Unit} : ensureAt pc p reason = .ok u ↔ p := by
  by_cases hp : p <;> simp [ensureAt, hp]

@[simp] theorem ensure_eq_ok {u : Unit} : ensure p reason = .ok u ↔ p := by
  by_cases hp : p <;> simp [ensure, hp]

@[simp] theorem checkRegisters_eq_ok {first count frame : Nat} {u : Unit} :
    checkRegisters pc first count frame = .ok u ↔ first + count ≤ frame := ensureAt_eq_ok

@[simp] theorem checkReg_eq_ok {bc : Bytecode} {value : Nat} {u : Unit} :
    checkReg bc pc value = .ok u ↔ value < bc.maxStack := checkRegisters_eq_ok

@[simp] theorem checkIndex_eq_ok {value len : Nat} {operand : BytecodeOperand} {u : Unit} :
    checkIndex pc value len operand = .ok u ↔ value < len := ensureAt_eq_ok

/-- An accepted count is open, or fixed and within its limit. -/
theorem countOperand_eq_ok {value limit : Nat} {count : Option Nat} :
    countOperand pc value limit = .ok count ↔
      (value = OPEN_COUNT ∧ count = none) ∨
        (value ≠ OPEN_COUNT ∧ value ≤ limit ∧ count = some value) := by
  rw [countOperand]
  split
  · simp_all [eq_comm]
  · split
    · simp_all [eq_comm]
    · simp_all

end Checks

/-! ## Operands -/

/-- The number of slots of the cache family an opcode uses, given those of all
    families. -/
def Opcode.cacheLimit (slots : SlotCursors) : Opcode → Option Nat
  | .getGlobal | .setGlobal => some slots.nextGlobal
  | .getField | .self => some slots.nextField
  | .setField => some slots.nextSetField
  | .tforCall => some slots.nextTforCursor
  | _ => none

/-- The cache slot of an instruction, if it names one, is one of its family. -/
def CacheOk (slots : SlotCursors) (inst : Instr) (op : Opcode) : Prop :=
  ∀ slot, inst.cacheSlot = some slot → ∀ limit, op.cacheLimit slots = some limit → slot < limit

/-- A count is open, or fixed and the registers it counts from `first` on
    exist. -/
def CountOk (count limit first frame : Nat) : Prop :=
  count = OPEN_COUNT ∨ count ≠ OPEN_COUNT ∧ count ≤ limit ∧ first + count ≤ frame

/-- The operands of an instruction name registers of the frame and entries of
    their pools. -/
def Opcode.OperandsOk (bc : Bytecode) (inst : Instr) : Opcode → Prop
  | .arith _ .regReg => inst.a < bc.maxStack ∧ inst.b < bc.maxStack ∧ inst.c < bc.maxStack
  | .arith _ .regConst =>
    inst.a < bc.maxStack ∧ inst.b < bc.maxStack ∧ inst.c < bc.numberLiterals.length
  | .arith _ .constReg =>
    inst.a < bc.maxStack ∧ inst.b < bc.numberLiterals.length ∧ inst.c < bc.maxStack
  | .move | .unm | .not | .len | .branchCompare _ =>
    inst.a < bc.maxStack ∧ inst.b < bc.maxStack
  | .getTable | .setTable | .initIndex | .compare _ =>
    inst.a < bc.maxStack ∧ inst.b < bc.maxStack ∧ inst.c < bc.maxStack
  | .newTable | .testFalse | .testTrue | .loadBool | .newTablePresized => inst.a < bc.maxStack
  | .loadNil => inst.a + inst.b ≤ bc.maxStack
  | .loadNum => inst.a < bc.maxStack ∧ inst.b < bc.numberLiterals.length
  | .loadStr | .getGlobal | .setGlobal =>
    inst.a < bc.maxStack ∧ inst.b < bc.stringLiterals.length
  | .getUpval | .setUpval => inst.a < bc.maxStack ∧ inst.b < bc.upvalues.length
  | .newTableTemplate => inst.a < bc.maxStack ∧ inst.b < bc.tableTemplates.length
  | .closure => inst.a < bc.maxStack ∧ inst.b < bc.nested.length
  | .close => inst.a ≤ bc.maxStack
  | .getBuiltin | .setBuiltin => inst.a < bc.maxStack ∧ inst.b < BUILTIN_COUNT
  | .getField =>
    inst.a < bc.maxStack ∧ inst.b < bc.maxStack ∧ inst.c < bc.stringLiterals.length
  | .self =>
    inst.a + 2 ≤ bc.maxStack ∧ inst.b < bc.maxStack ∧ inst.c < bc.stringLiterals.length
  | .setField | .initField | .initFieldPinned =>
    inst.a < bc.maxStack ∧ inst.b < bc.stringLiterals.length ∧ inst.c < bc.maxStack
  | .setList => inst.a < bc.maxStack ∧ CountOk inst.b 255 (inst.a + 1) bc.maxStack
  | .concat => inst.a < bc.maxStack ∧ inst.b + inst.c ≤ bc.maxStack
  | .jmp => True
  | .forPrep | .tforLoop => 0 ≤ inst.sj ∧ inst.a + 4 ≤ bc.maxStack
  | .forLoop => inst.a + 4 ≤ bc.maxStack
  | .tforCall => inst.b ≤ 255 ∧ inst.a + 3 + inst.b ≤ bc.maxStack
  | .call => inst.a < bc.maxStack ∧ CountOk inst.b MAX_FIXED_ARGS (inst.a + 1) bc.maxStack ∧
    CountOk inst.c MAX_FIXED_RESULTS inst.a bc.maxStack
  | .tailCall => inst.a < bc.maxStack ∧ CountOk inst.b MAX_FIXED_ARGS (inst.a + 1) bc.maxStack
  | .ret => inst.b = OPEN_COUNT ∧ inst.a < bc.maxStack ∨
    inst.b ≠ OPEN_COUNT ∧ inst.b ≤ 255 ∧ inst.a + inst.b ≤ bc.maxStack
  | .vararg => inst.a < bc.maxStack ∧ CountOk inst.b MAX_FIXED_RESULTS inst.a bc.maxStack

section Operands

variable {bc : Bytecode} {pc : Nat} {inst : Instr} {op : Opcode} {slots slots' : SlotCursors}

/-- The pool operand of a checked instruction lies in the pool. -/
theorem checkPool_eq_ok (hop : inst.opcode = some op) :
    checkPool bc pc inst = .ok () ↔
      match op.pool with
      | none => False
      | some (pool, field) =>
        (match field with | .b => inst.b | .c => inst.c) <
          (match pool with
            | .number => bc.numberLiterals.length
            | .string => bc.stringLiterals.length
            | .template => bc.tableTemplates.length
            | .nested => bc.nested.length
            | .upvalue => bc.upvalues.length) := by
  rw [checkPool, Instr.poolOperand, hop, Option.bind_some]
  rcases op.pool with _ | ⟨_ | _ | _ | _ | _, _ | _⟩ <;> simp

theorem countOk_of_countOperand {value limit first frame : Nat} {count : Option Nat}
    (h : countOperand pc value limit = .ok count) (hf : first + count.getD 0 ≤ frame) :
    CountOk value limit first frame := by
  rcases countOperand_eq_ok.1 h with ⟨hv, rfl⟩ | ⟨hv, hl, rfl⟩
  · exact .inl hv
  · exact .inr ⟨hv, hl, hf⟩

/-- The operands of a checked instruction are in range. -/
theorem operandsOk_of_checkOperands (hop : inst.opcode = some op)
    (h : checkOperands bc pc inst op slots = .ok slots') : op.OperandsOk bc inst := by
  have hpool : checkPool bc pc inst = .ok () ↔ _ := checkPool_eq_ok hop
  cases op with
  | arith op operands =>
    cases operands <;> simp_all [checkOperands, checkArith, Opcode.OperandsOk, Opcode.pool]
  | setList =>
    simp only [checkOperands, bind_eq_ok, checkReg_eq_ok] at h
    obtain ⟨_, ha, count, hc, hr⟩ := h
    refine ⟨ha, ?_⟩
    rcases countOperand_eq_ok.1 hc with ⟨hb, rfl⟩ | ⟨hb, hl, rfl⟩
    · exact .inl hb
    · obtain ⟨_, hr, -⟩ := bind_eq_ok.1 hr
      exact .inr ⟨hb, hl, by simpa [Nat.add_assoc] using hr⟩
  | call =>
    simp only [checkOperands, bind_eq_ok, checkRegisters_eq_ok] at h
    obtain ⟨_, -, args, hargs, results, hres, _, ha, _, hr, -⟩ := h
    exact ⟨by omega, countOk_of_countOperand hargs (by omega), countOk_of_countOperand hres hr⟩
  | tailCall =>
    simp only [checkOperands, bind_eq_ok, checkRegisters_eq_ok] at h
    obtain ⟨_, -, args, hargs, _, ha, -⟩ := h
    exact ⟨by omega, countOk_of_countOperand hargs (by omega)⟩
  | ret =>
    simp only [checkOperands, bind_eq_ok] at h
    obtain ⟨count, hc, hr⟩ := h
    rcases countOperand_eq_ok.1 hc with ⟨hb, rfl⟩ | ⟨hb, hl, rfl⟩
    · obtain ⟨_, hr, -⟩ := bind_eq_ok.1 hr
      exact .inl ⟨hb, checkReg_eq_ok.1 hr⟩
    · obtain ⟨_, hr, -⟩ := bind_eq_ok.1 hr
      exact .inr ⟨hb, hl, checkRegisters_eq_ok.1 hr⟩
  | vararg =>
    simp only [checkOperands, bind_eq_ok, checkRegisters_eq_ok] at h
    obtain ⟨_, -, count, hc, _, hr, -⟩ := h
    refine ⟨by omega, ?_⟩
    rcases countOperand_eq_ok.1 hc with ⟨hb, rfl⟩ | ⟨hb, hl, rfl⟩
    · exact .inl hb
    · exact .inr ⟨hb, hl, by simp only [Option.getD_some] at hr; omega⟩
  | tforCall =>
    simp only [checkOperands, bind_eq_ok, checkRegisters_eq_ok, ensureAt_eq_ok] at h
    obtain ⟨_, hb, _, -, _, ha, -⟩ := h
    exact ⟨hb, by omega⟩
  | _ => simp_all [checkOperands, Opcode.OperandsOk, Opcode.pool]

end Operands

/-! ## Cache slots -/

/-- The cursors of all families only grow. -/
structure SlotCursors.Le (s t : SlotCursors) : Prop where
  global : s.nextGlobal ≤ t.nextGlobal
  field : s.nextField ≤ t.nextField
  setField : s.nextSetField ≤ t.nextSetField
  tforCursor : s.nextTforCursor ≤ t.nextTforCursor

/-- The slots recorded for the names of globals are allocated. -/
def SlotCursors.Bounded (s : SlotCursors) : Prop :=
  ∀ name slot : Nat, s.globals[name]? = some (some slot) → slot < s.nextGlobal

namespace SlotCursors

variable {s t u : SlotCursors}

theorem Le.refl (s : SlotCursors) : s.Le s := ⟨le_refl _, le_refl _, le_refl _, le_refl _⟩

theorem Le.trans (h : s.Le t) (h' : t.Le u) : s.Le u :=
  ⟨h.global.trans h'.global, h.field.trans h'.field, h.setField.trans h'.setField,
    h.tforCursor.trans h'.tforCursor⟩

end SlotCursors

/-- A cache slot below smaller limits is below larger ones. -/
theorem CacheOk.mono {s t : SlotCursors} {inst : Instr} {op : Opcode} (h : CacheOk s inst op)
    (hst : s.Le t) : CacheOk t inst op := by
  intro slot hslot limit hlimit
  have := hst.global
  have := hst.field
  have := hst.setField
  have := hst.tforCursor
  cases op <;> simp only [Opcode.cacheLimit, Option.some.injEq, reduceCtorEq] at hlimit <;>
    exact lt_of_lt_of_le (h slot hslot _ rfl) (by omega)

section Slots

variable {bc : Bytecode} {pc : Nat} {inst : Instr} {op : Opcode} {slots slots' : SlotCursors}

theorem sequential_eq_ok {slot : Option Nat} {next next' : Nat} {family : CacheFamily}
    (h : sequential pc slot next family = .ok next') :
    next ≤ next' ∧ ∀ k, slot = some k → k < next' := by
  rcases slot with _ | slot
  · simp only [sequential, Except.ok.injEq] at h
    exact ⟨h.le, by simp⟩
  · simp only [sequential] at h
    split at h
    · rename_i hs
      simp only [Except.ok.injEq] at h
      exact ⟨by omega, fun k hk => by simp only [Option.some.injEq] at hk; omega⟩
    · simp at h

theorem globalRead_eq_ok {name slot : Nat} (h : globalRead pc name slot slots = .ok slots')
    (hb : slots.Bounded) : slots'.Bounded ∧ slots.Le slots' ∧ slot < slots'.nextGlobal := by
  rw [globalRead] at h
  split at h
  · -- The name has a slot already.
    rename_i expected hname
    split at h
    · rename_i he
      simp only [Except.ok.injEq] at h
      subst h he
      exact ⟨hb, .refl _, hb name slot (Option.join_eq_some_iff.1 hname)⟩
    · simp at h
  · split at h
    · rename_i he
      simp only [Except.ok.injEq] at h
      subst h he
      refine ⟨fun n k hk => ?_, ⟨by simp, le_refl _, le_refl _, le_refl _⟩, by simp⟩
      rw [List.getElem?_set] at hk
      split at hk
      · simp at hk; simp; omega
      · exact Nat.lt_succ_of_lt (hb n k hk)
    · simp at h

theorem globalWrite_eq_ok {slot : Nat} (h : globalWrite pc slot slots = .ok slots')
    (hb : slots.Bounded) : slots'.Bounded ∧ slots.Le slots' ∧ slot < slots'.nextGlobal := by
  rw [globalWrite] at h
  split at h
  · rename_i he
    simp only [Except.ok.injEq] at h
    subst h he
    exact ⟨fun n k hk => Nat.lt_succ_of_lt (hb n k hk), ⟨by simp, le_refl _, le_refl _, le_refl _⟩,
      by simp⟩
  · simp at h

/-- An instruction takes the slots it names and moves no cursor back. -/
theorem slots_of_checkOperands (h : checkOperands bc pc inst op slots = .ok slots')
    (hb : slots.Bounded) : slots'.Bounded ∧ slots.Le slots' ∧ CacheOk slots' inst op := by
  have keep : slots = slots' → op.cacheLimit slots' = none →
      slots'.Bounded ∧ slots.Le slots' ∧ CacheOk slots' inst op := by
    rintro rfl hc
    exact ⟨hb, .refl _, fun _ _ limit hl => by simp [hc] at hl⟩
  cases op with
  | getGlobal =>
    simp only [checkOperands, bind_eq_ok] at h
    obtain ⟨_, -, _, -, h⟩ := h
    split at h
    · rename_i hs
      obtain rfl : slots = slots' := by simpa [pure, Except.pure] using h
      exact ⟨hb, .refl _, fun slot hslot => by simp [hs] at hslot⟩
    · rename_i slot hs
      obtain ⟨hb', hle, hlt⟩ := globalRead_eq_ok h hb
      refine ⟨hb', hle, fun k hk limit hl => ?_⟩
      simp_all [Opcode.cacheLimit]
  | setGlobal =>
    simp only [checkOperands, bind_eq_ok] at h
    obtain ⟨_, -, _, -, h⟩ := h
    split at h
    · rename_i hs
      obtain rfl : slots = slots' := by simpa [pure, Except.pure] using h
      exact ⟨hb, .refl _, fun slot hslot => by simp [hs] at hslot⟩
    · rename_i slot hs
      obtain ⟨hb', hle, hlt⟩ := globalWrite_eq_ok h hb
      refine ⟨hb', hle, fun k hk limit hl => ?_⟩
      simp_all [Opcode.cacheLimit]
  | getField =>
    simp only [checkOperands, bind_eq_ok] at h
    obtain ⟨_, -, _, -, _, -, next, hn, h⟩ := h
    obtain rfl : { slots with nextField := next } = slots' := by
      simpa [pure, Except.pure] using h
    obtain ⟨hle, hlt⟩ := sequential_eq_ok hn
    exact ⟨hb, ⟨le_refl _, hle, le_refl _, le_refl _⟩, fun k hk limit hl => by
      simp only [Opcode.cacheLimit, Option.some.injEq] at hl
      exact hl ▸ hlt k hk⟩
  | self =>
    simp only [checkOperands, bind_eq_ok] at h
    obtain ⟨_, -, _, -, _, -, next, hn, h⟩ := h
    obtain rfl : { slots with nextField := next } = slots' := by
      simpa [pure, Except.pure] using h
    obtain ⟨hle, hlt⟩ := sequential_eq_ok hn
    exact ⟨hb, ⟨le_refl _, hle, le_refl _, le_refl _⟩, fun k hk limit hl => by
      simp only [Opcode.cacheLimit, Option.some.injEq] at hl
      exact hl ▸ hlt k hk⟩
  | setField =>
    simp only [checkOperands, bind_eq_ok] at h
    obtain ⟨_, -, _, -, _, -, next, hn, h⟩ := h
    obtain rfl : { slots with nextSetField := next } = slots' := by
      simpa [pure, Except.pure] using h
    obtain ⟨hle, hlt⟩ := sequential_eq_ok hn
    exact ⟨hb, ⟨le_refl _, le_refl _, hle, le_refl _⟩, fun k hk limit hl => by
      simp only [Opcode.cacheLimit, Option.some.injEq] at hl
      exact hl ▸ hlt k hk⟩
  | tforCall =>
    simp only [checkOperands, bind_eq_ok] at h
    obtain ⟨_, -, _, -, _, -, next, hn, h⟩ := h
    obtain rfl : { slots with nextTforCursor := next } = slots' := by
      simpa [pure, Except.pure] using h
    obtain ⟨hle, hlt⟩ := sequential_eq_ok hn
    exact ⟨hb, ⟨le_refl _, le_refl _, le_refl _, hle⟩, fun k hk limit hl => by
      simp only [Opcode.cacheLimit, Option.some.injEq] at hl
      exact hl ▸ hlt k hk⟩
  | setList =>
    simp only [checkOperands, bind_eq_ok] at h
    obtain ⟨_, -, count, -, h⟩ := h
    refine keep ?_ rfl
    rcases count with _ | count <;> simp [pure, Except.pure] at h
    · exact h
    · exact h.2
  | ret =>
    simp only [checkOperands, bind_eq_ok] at h
    obtain ⟨count, -, h⟩ := h
    refine keep ?_ rfl
    rcases count with _ | count <;> simp [pure, Except.pure] at h
    · exact h.2
    · exact h.2
  | _ =>
    refine keep ?_ rfl
    simp only [checkOperands, bind_eq_ok, pure, Except.pure, Except.ok.injEq, exists_and_right] at h
    clear keep
    grind

end Slots

/-! ## Jump targets -/

/-- A jump target is where the offset says, and lies in the code. -/
theorem jumpTarget_eq_some {pc codeLen t : Nat} {inst : Instr}
    (h : jumpTarget pc inst codeLen = some t) :
    (t : Int) = pc + 1 + inst.sj ∧ t < codeLen := by
  simp only [jumpTarget] at h
  split at h
  · simp only [Option.some.injEq] at h
    omega
  · simp at h

/-- Every transfer of the code has its target marked, and what was marked stays
    so. -/
theorem markTargets_eq_ok {codeLen pc : Nat} {code : List Instr} {before after : List Bool}
    (h : markTargets codeLen code pc before = .ok after) (hlen : before.length = codeLen) :
    after.length = codeLen ∧ (∀ t : Nat, before[t]? = some true → after[t]? = some true) ∧
      ∀ (i : Nat) inst, code[i]? = some inst → inst.isTransfer = true →
        ∃ t, jumpTarget (pc + i) inst codeLen = some t ∧ after[t]? = some true := by
  induction code generalizing pc before with
  | nil =>
    simp only [markTargets, Except.ok.injEq] at h
    subst h
    exact ⟨hlen, fun _ => id, by simp⟩
  | cons inst code ih =>
    simp only [markTargets] at h
    split at h
    · rename_i htr
      split at h
      · rename_i target htarget
        obtain ⟨hl, hkeep, hcode⟩ := ih h (by simpa using hlen)
        have hset : (before.set target true)[target]? = some true := by
          rw [List.getElem?_set_self (hlen ▸ (jumpTarget_eq_some htarget).2)]
        refine ⟨hl, fun t ht => hkeep t ?_, fun i inst' hi htr' => ?_⟩
        · by_cases htt : target = t
          · exact htt ▸ hset
          · rwa [List.getElem?_set_ne htt]
        · rcases i with _ | i
          · simp only [List.getElem?_cons_zero, Option.some.injEq] at hi
            subst hi
            exact ⟨target, htarget, hkeep target hset⟩
          · simpa [Nat.add_assoc, Nat.add_comm 1 i] using hcode i inst' (by simpa using hi) htr'
      · simp at h
    · rename_i htr
      obtain ⟨hl, hkeep, hcode⟩ := ih h hlen
      refine ⟨hl, hkeep, fun i inst' hi htr' => ?_⟩
      rcases i with _ | i
      · simp only [List.getElem?_cons_zero, Option.some.injEq] at hi
        subst hi
        exact absurd htr' htr
      · simpa [Nat.add_assoc, Nat.add_comm 1 i] using hcode i inst' (by simpa using hi) htr'

/-! ## Every instruction -/

/-- A cache slot lies in the family of the instruction. -/
def Opcode.CacheInRange (bc : Bytecode) (slot : Nat) : Opcode → Prop
  | .getGlobal | .setGlobal => slot < bc.globalCacheSlots
  | .getField | .self => slot < bc.fieldCacheSlots
  | .setField => slot < bc.setFieldCacheSlots
  | .tforCall => slot < bc.tforCursorSlots
  | _ => True

/-- What verification establishes of the instruction `inst` at `pc`. -/
structure VerifiedAt (bc : Bytecode) (pc : Nat) (inst : Instr) (op : Opcode) : Prop where
  opcode : inst.opcode = some op
  operands : op.OperandsOk bc inst
  cache : ∀ slot, inst.cacheSlot = some slot → op.CacheInRange bc slot
  /-- A jump lands in the code, and on no open consumer. -/
  transfer : op.isTransfer = true → ∃ t next, jumpTarget pc inst bc.code.length = some t ∧
    bc.code[t]? = some next ∧ next.consumesOpen = false
  /-- An open producer is followed by a consumer of what it leaves. -/
  produces : inst.producesOpen = true → ∃ next, bc.code[pc + 1]? = some next ∧
    next.consumesOpen = true ∧ next.windowStart ≤ inst.a
  /-- The first instruction reads no open results. -/
  entry : pc = 0 → inst.consumesOpen = false
  /-- Any other instruction that is not the last is followed by no consumer. -/
  falls : op ≠ .ret → inst.producesOpen = false →
    ∃ next, bc.code[pc + 1]? = some next ∧ next.consumesOpen = false

section Verified

variable {bc : Bytecode} {targeted : List Bool}

/-- The checks of the code hold at each of its instructions, with cursors that
    only grow. -/
theorem checkCode_eq_ok {code : List Instr} {pc : Nat} {slots final : SlotCursors}
    (h : checkCode bc targeted code pc slots = .ok final) (hb : slots.Bounded) :
    slots.Le final ∧ ∀ (i : Nat) inst, code[i]? = some inst →
      ∃ op, inst.opcode = some op ∧ op.OperandsOk bc inst ∧ CacheOk final inst op ∧
        (inst.producesOpen = true → openConsumed bc targeted (pc + i) inst = true) ∧
        (inst.consumesOpen = true → openProduced bc targeted (pc + i) inst = true) := by
  induction code generalizing pc slots with
  | nil =>
    simp only [checkCode, Except.ok.injEq] at h
    subst h
    exact ⟨.refl _, by simp⟩
  | cons inst code ih =>
    simp only [checkCode, bind_eq_ok] at h
    obtain ⟨slots', hinst, hcode⟩ := h
    rw [checkInstr] at hinst
    rcases hop : inst.opcode with _ | op
    · simp [hop] at hinst
    simp only [hop, bind_eq_ok, ensureAt_eq_ok, checkOpenResults] at hinst
    obtain ⟨_, -, slots'', hops, _, ⟨_, hprod, hcons⟩, hs⟩ := hinst
    obtain rfl : slots'' = slots' := by simpa [pure, Except.pure] using hs
    obtain ⟨hb', hle, hcache⟩ := slots_of_checkOperands hops hb
    obtain ⟨hle', hrest⟩ := ih hcode hb'
    refine ⟨hle.trans hle', fun i inst' hi => ?_⟩
    rcases i with _ | i
    · simp only [List.getElem?_cons_zero, Option.some.injEq] at hi
      subst hi
      exact ⟨op, hop, operandsOk_of_checkOperands hop hops, hcache.mono hle', hprod, hcons⟩
    · have := hrest i inst' (by simpa using hi)
      simpa only [Nat.add_assoc, Nat.add_comm 1 i] using this

theorem openConsumed_iff {pc : Nat} {inst : Instr} :
    openConsumed bc targeted pc inst = true ↔ ∃ next, bc.code[pc + 1]? = some next ∧
      targeted.getD (pc + 1) false = false ∧ next.consumesOpen = true ∧
      next.windowStart ≤ inst.a := by
  rw [openConsumed]
  rcases bc.code[pc + 1]? with _ | next
  · simp
  · simp [openWindowFits, and_assoc]

theorem openProduced_iff {pc : Nat} {inst : Instr} :
    openProduced bc targeted pc inst = true ↔ ∃ prev previous, pc = prev + 1 ∧
      bc.code[prev]? = some previous ∧ targeted.getD pc false = false ∧
      previous.producesOpen = true ∧ inst.windowStart ≤ previous.a := by
  rcases pc with _ | prev
  · simp [openProduced]
  · rcases h : bc.code[prev]? with _ | previous
    · simp [openProduced, h]
    · simp [openProduced, h, openWindowFits, and_assoc]

/-- What verification establishes of a function as a whole. -/
structure HeaderOk (bc : Bytecode) : Prop where
  nonempty : bc.code ≠ []
  frame : bc.numParams + bc.numLocals ≤ bc.maxStack
  last : bc.code.getLast?.bind Instr.opcode = some .ret
  /-- The keys of every template name string literals. -/
  templates : ∀ template ∈ bc.tableTemplates, ∀ key ∈ template, key < bc.stringLiterals.length

theorem checkTemplate_eq_ok {index : Nat} {template : List Nat} {seen : List (List UInt8)}
    (h : checkTemplate bc index template seen = .ok ()) :
    ∀ key ∈ template, key < bc.stringLiterals.length := by
  induction template generalizing seen with
  | nil => simp
  | cons key keys ih =>
    simp only [checkTemplate] at h
    split at h
    · simp at h
    · rename_i bytes hbytes
      split at h
      · simp at h
      · intro k hk
        rcases List.mem_cons.1 hk with rfl | hk
        · exact (List.getElem?_eq_some_iff.1 hbytes).1
        · exact ih h k hk

theorem checkTemplates_eq_ok {templates : List (List Nat)} {index : Nat}
    (h : checkTemplates bc templates index = .ok ()) :
    ∀ template ∈ templates, ∀ key ∈ template, key < bc.stringLiterals.length := by
  induction templates generalizing index with
  | nil => simp
  | cons template templates ih =>
    simp only [checkTemplates, bind_eq_ok] at h
    obtain ⟨_, ht, hts⟩ := h
    intro t hmem
    rcases List.mem_cons.1 hmem with rfl | hmem
    · exact checkTemplate_eq_ok ht
    · exact ih hts t hmem

theorem headerOk (h : validateBytecode bc = .ok ()) : HeaderOk bc := by
  simp only [validateBytecode, checkHeader, bind_eq_ok, ensure_eq_ok] at h
  obtain ⟨_, ⟨_, hne, _, -, _, -, _, -, _, -, _, -, _, -, _, -, _, -, _, hframe, _, hlast, ht⟩, -⟩ := h
  exact ⟨hne, hframe, ensureAt_eq_ok.1 hlast, checkTemplates_eq_ok ht⟩

/-- Only the last instruction of a verified function has none after it, and it
    returns. -/
theorem HeaderOk.succ_lt (h : HeaderOk bc) {pc : Nat} {inst : Instr}
    (hi : bc.code[pc]? = some inst) (hop : inst.opcode ≠ some .ret) :
    pc + 1 < bc.code.length := by
  obtain ⟨hpc, -⟩ := List.getElem?_eq_some_iff.1 hi
  by_contra hlast
  have hret := h.last
  rw [List.getLast?_eq_getElem?, show bc.code.length - 1 = pc by omega, hi] at hret
  exact hop hret

/-- What verification establishes of every instruction. -/
theorem verifiedAt (h : validateBytecode bc = .ok ()) {pc : Nat} {inst : Instr}
    (hi : bc.code[pc]? = some inst) : ∃ op, VerifiedAt bc pc inst op := by
  have hheader := headerOk h
  simp only [validateBytecode, bind_eq_ok] at h
  obtain ⟨_, -, targeted, hmark, slots, hcode, hcounts⟩ := h
  obtain ⟨-, -, htargets⟩ := markTargets_eq_ok hmark (by simp)
  obtain ⟨-, hall⟩ := checkCode_eq_ok hcode fun name slot hn => by
    simp [List.getElem?_replicate] at hn
  simp only [checkSlotCounts, ensure_eq_ok] at hcounts
  obtain ⟨hg, hf, hs, ht⟩ := hcounts
  obtain ⟨op, hop, hoperands, hcache, hprod, hcons⟩ := hall pc inst hi
  -- No consumer is entered by a jump.
  have hjump : ∀ t : Nat, targeted[t]? = some true → t < bc.code.length →
      ∃ next, bc.code[t]? = some next ∧ next.consumesOpen = false := by
    intro t ht hlt
    refine ⟨bc.code[t], List.getElem?_eq_getElem hlt, ?_⟩
    by_contra hc
    obtain ⟨-, -, -, -, -, hp⟩ := hall t bc.code[t] (List.getElem?_eq_getElem hlt)
    obtain ⟨_, _, -, -, hnot, -⟩ := openProduced_iff.1 (hp (by simpa using hc))
    simp [ht] at hnot
  refine ⟨op, hop, hoperands, ?_, fun htr => ?_, fun hp => ?_, fun hpc => ?_,
    fun hret hp => ?_⟩
  · intro slot hslot
    have := hcache slot hslot
    cases op <;> simp_all [Opcode.cacheLimit, Opcode.CacheInRange]
  · obtain ⟨t, ht, htt⟩ := htargets pc inst hi (by simp [Instr.isTransfer, hop, htr])
    obtain ⟨next, hn, hnc⟩ := hjump t htt (jumpTarget_eq_some ht).2
    exact ⟨t, next, by simpa using ht, hn, hnc⟩
  · obtain ⟨next, hn, -, hnc, hfit⟩ := openConsumed_iff.1 (hprod hp)
    exact ⟨next, by simpa using hn, hnc, hfit⟩
  · by_contra hc
    obtain ⟨_, _, hprev, -⟩ := openProduced_iff.1 (hcons (by simpa using hc))
    omega
  · have hlt := hheader.succ_lt hi (by simpa [hop] using hret)
    refine ⟨bc.code[pc + 1], List.getElem?_eq_getElem hlt, ?_⟩
    by_contra hc
    obtain ⟨-, -, -, -, -, hq⟩ := hall (pc + 1) _ (List.getElem?_eq_getElem hlt)
    obtain ⟨prev, previous, hpc, hprev, -, hpp, -⟩ := openProduced_iff.1 (hq (by simpa using hc))
    obtain rfl : prev = pc := by omega
    simp_all

end Verified

end Dellingr
