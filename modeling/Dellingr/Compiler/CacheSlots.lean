import Dellingr.Compiler.Verified

/-!
# Cache slots

The compiler gives the instructions that look up a name or a field slots of the
inline caches (`Bytecode.assignCacheSlots`), and the verifier checks the slots of
bytecode that may come from anywhere by a policy of its own. A cache hit does not
compare keys, so it is the policy that keeps two keys from sharing a slot.

* `checkSlots_assign`: the verifier's policy accepts what the compiler assigns;
* `assign_congr`: what an operand held before does not matter to the assignment;
* `ownedBy_checkSlots`: a slot of an accepted function stands for one key.
-/

namespace Dellingr

/-- A slot below the limit of a family, as an operand can name it. -/
abbrev CacheSlot := Fin MAX_CACHE_SLOTS

/-- Encode a cache operand: zero is uncached, and slots are biased by one. -/
def encodeCacheSlot : Option CacheSlot → Nat
  | none => 0
  | some slot => slot + 1

/-- The instruction with its cache operand replaced. -/
def Instr.withCacheSlot (inst : Instr) (slot : Option CacheSlot) : Instr :=
  ⟨inst.raw &&& ~~~0xff#64 ||| BitVec.ofNat 64 (encodeCacheSlot slot)⟩

/-! ## The assignment -/

/-- Allocate the next slot of a family, or none once it is full. -/
def allocateSlot (len : Nat) : Option CacheSlot × Nat :=
  if h : len < MAX_CACHE_SLOTS then (some ⟨len, h⟩, len + 1) else (none, len)

/-- What was allocated: for each string literal the outcome at the first read of the
    global it names, and the number of slots of each family. -/
structure SlotAllocation where
  globals : List (Option (Option CacheSlot))
  globalLen : Nat := 0
  fieldLen : Nat := 0
  setFieldLen : Nat := 0
  tforCursorLen : Nat := 0

/-- Give an instruction its slot. -/
def assignInstr (s : SlotAllocation) (inst : Instr) : Instr × SlotAllocation :=
  match inst.opcode with
  | some .getGlobal =>
    match s.globals[inst.b]? with
    -- A literal that is not there has no slot.
    | none => (inst.withCacheSlot none, s)
    | some (some slot) => (inst.withCacheSlot slot, s)
    | some none =>
      let (slot, len) := allocateSlot s.globalLen
      (inst.withCacheSlot slot,
        { s with globals := s.globals.set inst.b (some slot), globalLen := len })
  -- A write takes a fresh slot, never one that a name owns.
  | some .setGlobal =>
    let (slot, len) := allocateSlot s.globalLen
    (inst.withCacheSlot slot, { s with globalLen := len })
  | some .getField | some .self =>
    let (slot, len) := allocateSlot s.fieldLen
    (inst.withCacheSlot slot, { s with fieldLen := len })
  | some .setField =>
    let (slot, len) := allocateSlot s.setFieldLen
    (inst.withCacheSlot slot, { s with setFieldLen := len })
  | some .tforCall =>
    let (slot, len) := allocateSlot s.tforCursorLen
    (inst.withCacheSlot slot, { s with tforCursorLen := len })
  | _ => (inst, s)

/-- Give the instructions their slots, in order. -/
def assignCode : List Instr → SlotAllocation → List Instr × SlotAllocation
  | [], s => ([], s)
  | inst :: code, s =>
    let (inst, s) := assignInstr s inst
    let (code, s) := assignCode code s
    (inst :: code, s)

/-- Before any instruction. -/
def SlotAllocation.start (bc : Bytecode) : SlotAllocation where
  globals := List.replicate bc.stringLiterals.length none

/-- Give the instructions of a function their slots, and record the counts. -/
def Bytecode.assignCacheSlots (bc : Bytecode) : Bytecode :=
  let (code, s) := assignCode bc.code (.start bc)
  { bc with
    code := code
    globalCacheSlots := s.globalLen
    fieldCacheSlots := s.fieldLen
    setFieldCacheSlots := s.setFieldLen
    tforCursorSlots := s.tforCursorLen }

/-! ## Operands -/

namespace Instr

variable (inst : Instr) (slot : Option CacheSlot)

theorem encodeCacheSlot_lt : encodeCacheSlot slot < 256 := by
  cases slot with
  | none => decide
  | some slot =>
    have := slot.isLt
    simp only [encodeCacheSlot, MAX_CACHE_SLOTS] at *
    omega

theorem getLsbD_withCacheSlot {i : Nat} (hi : i < 64) :
    (inst.withCacheSlot slot).raw.getLsbD i =
      if i < 8 then (encodeCacheSlot slot).testBit i else inst.raw.getLsbD i := by
  have hmask : (0xff#64).getLsbD i = decide (i < 8) := by
    rw [BitVec.getLsbD_ofNat, show 0xff = 2 ^ 8 - 1 from rfl, Nat.testBit_two_pow_sub_one]
    simp [hi]
  simp only [withCacheSlot, BitVec.getLsbD_or, BitVec.getLsbD_and, BitVec.getLsbD_not, hmask,
    BitVec.getLsbD_ofNat, hi, decide_true, Bool.true_and]
  split
  · simp [*]
  · have hlt : encodeCacheSlot slot < 2 ^ i := lt_of_lt_of_le (encodeCacheSlot_lt slot)
      (show 2 ^ 8 ≤ 2 ^ i from Nat.pow_le_pow_right (by decide) (by omega))
    simp [*, Nat.testBit_lt_two_pow hlt]

/-- Bits above the cache operand stay. -/
theorem extract_withCacheSlot {start len : Nat} (hs : 8 ≤ start) (hl : start + len ≤ 64) :
    (inst.withCacheSlot slot).raw.extractLsb' start len = inst.raw.extractLsb' start len := by
  refine BitVec.eq_of_getLsbD_eq fun i hi => ?_
  rw [BitVec.getLsbD_extractLsb', BitVec.getLsbD_extractLsb',
    getLsbD_withCacheSlot inst slot (by omega), if_neg (by omega)]

@[simp] theorem opcode_withCacheSlot : (inst.withCacheSlot slot).opcode = inst.opcode := by
  rw [opcode, opcode, extract_withCacheSlot inst slot (by decide) (by decide)]

@[simp] theorem b_withCacheSlot : (inst.withCacheSlot slot).b = inst.b := by
  rw [b, b, extract_withCacheSlot inst slot (by decide) (by decide)]

@[simp] theorem d_withCacheSlot : (inst.withCacheSlot slot).d = encodeCacheSlot slot := by
  have hd : (inst.withCacheSlot slot).raw.extractLsb' 0 8 =
      BitVec.ofNat 8 (encodeCacheSlot slot) := by
    refine BitVec.eq_of_getLsbD_eq fun i hi => ?_
    rw [BitVec.getLsbD_extractLsb', Nat.zero_add, getLsbD_withCacheSlot inst slot (by omega),
      if_pos hi, BitVec.getLsbD_ofNat]
  rw [d, hd, BitVec.toNat_ofNat]
  exact Nat.mod_eq_of_lt (encodeCacheSlot_lt slot)

@[simp] theorem cacheSlot_withCacheSlot :
    (inst.withCacheSlot slot).cacheSlot = slot.map Fin.val := by
  cases slot <;> simp [cacheSlot, encodeCacheSlot]

/-- The last of two replacements counts. -/
@[simp] theorem withCacheSlot_withCacheSlot (slot' : Option CacheSlot) :
    (inst.withCacheSlot slot').withCacheSlot slot = inst.withCacheSlot slot := by
  have hraw : ((inst.withCacheSlot slot').withCacheSlot slot).raw =
      (inst.withCacheSlot slot).raw := by
    refine BitVec.eq_of_getLsbD_eq fun i hi => ?_
    rw [getLsbD_withCacheSlot _ slot hi, getLsbD_withCacheSlot inst slot hi]
    split
    · rfl
    · rw [getLsbD_withCacheSlot inst slot' hi, if_neg ‹_›]
  exact congrArg Instr.mk hraw

theorem cacheSlot_lt {k : Nat} (h : inst.cacheSlot = some k) : k < MAX_CACHE_SLOTS := by
  have hd : inst.d < 2 ^ 8 := BitVec.isLt _
  rw [cacheSlot] at h
  split at h
  · cases h
  · cases h
    rw [MAX_CACHE_SLOTS]
    omega

end Instr

/-! ## What an operand held before -/

/-- Whether an opcode has a cache operand. -/
def Opcode.bearsCache : Opcode → Bool
  | .getGlobal | .setGlobal | .getField | .self | .setField | .tforCall => true
  | _ => false

/-- The instruction without what its cache operand holds. -/
def Instr.clearCache (inst : Instr) : Instr :=
  if inst.opcode.any Opcode.bearsCache then inst.withCacheSlot none else inst

section Clear

variable {s : SlotAllocation} {inst : Instr} {code code' : List Instr}

/-- The assignment reads nothing of a cache operand. -/
theorem assignInstr_clearCache : assignInstr s inst.clearCache = assignInstr s inst := by
  rw [Instr.clearCache]
  split
  · simp only [assignInstr, Instr.opcode_withCacheSlot, Instr.b_withCacheSlot,
      Instr.withCacheSlot_withCacheSlot]
    cases hop : inst.opcode with
    | none => simp [hop] at *
    | some op => cases op <;> simp_all [Opcode.bearsCache]
  · rfl

/-- It changes nothing else. -/
theorem clearCache_assignInstr : (assignInstr s inst).1.clearCache = inst.clearCache := by
  have hwith : ∀ slot, inst.opcode.any Opcode.bearsCache = true →
      (inst.withCacheSlot slot).clearCache = inst.clearCache := by
    intro slot h
    rw [Instr.clearCache, Instr.clearCache, Instr.opcode_withCacheSlot, if_pos h, if_pos h,
      Instr.withCacheSlot_withCacheSlot]
  unfold assignInstr
  split
  · split <;> exact hwith _ (by simp [*, Opcode.bearsCache])
  all_goals first
    | rfl
    | exact hwith _ (by simp [*, Opcode.bearsCache])

theorem assignCode_clearCache : assignCode (code.map Instr.clearCache) s = assignCode code s := by
  induction code generalizing s with
  | nil => rfl
  | cons inst code ih => simp only [List.map_cons, assignCode, assignInstr_clearCache, ih]

theorem clearCache_assignCode :
    (assignCode code s).1.map Instr.clearCache = code.map Instr.clearCache := by
  induction code generalizing s with
  | nil => rfl
  | cons inst code ih => simp only [assignCode, List.map_cons, clearCache_assignInstr, ih]

/-- Instructions that differ in their cache operands are assigned the same slots. -/
theorem assignCode_congr (h : code'.map Instr.clearCache = code.map Instr.clearCache) :
    assignCode code' s = assignCode code s := by
  rw [← assignCode_clearCache, h, assignCode_clearCache]

theorem assign_congr (bc : Bytecode)
    (h : code'.map Instr.clearCache = bc.code.map Instr.clearCache) :
    { bc with code := code' }.assignCacheSlots = bc.assignCacheSlots := by
  simp only [Bytecode.assignCacheSlots, SlotAllocation.start, assignCode_congr h]

theorem assign_assign (bc : Bytecode) :
    bc.assignCacheSlots.assignCacheSlots = bc.assignCacheSlots := by
  have hcode : assignCode bc.assignCacheSlots.code (.start bc) = assignCode bc.code (.start bc) :=
    assignCode_congr clearCache_assignCode
  simp only [Bytecode.assignCacheSlots, SlotAllocation.start] at hcode ⊢
  rw [hcode]

end Clear

/-! ## The verifier's policy -/

/-- The slot an instruction takes, by the verifier's policy. -/
def checkSlot (pc : Nat) (inst : Instr) (op : Opcode) (slots : SlotCursors) :
    Validation SlotCursors :=
  match op with
  | .getGlobal =>
    match inst.cacheSlot with
    | none => .ok slots
    | some slot => globalRead pc inst.b slot slots
  | .setGlobal =>
    match inst.cacheSlot with
    | none => .ok slots
    | some slot => globalWrite pc slot slots
  | .getField | .self => do
    let next ← sequential pc inst.cacheSlot slots.nextField .field
    return { slots with nextField := next }
  | .setField => do
    let next ← sequential pc inst.cacheSlot slots.nextSetField .setField
    return { slots with nextSetField := next }
  | .tforCall => do
    let next ← sequential pc inst.cacheSlot slots.nextTforCursor .tforCursor
    return { slots with nextTforCursor := next }
  | _ => .ok slots

/-- The slots of the instructions from `pc` on. -/
def checkSlots : List Instr → Nat → SlotCursors → Validation SlotCursors
  | [], _, slots => .ok slots
  | inst :: code, pc, slots =>
    match inst.opcode with
    | none => checkSlots code (pc + 1) slots
    | some op => do
      let slots ← checkSlot pc inst op slots
      checkSlots code (pc + 1) slots

/-- Before any instruction. -/
def SlotCursors.start (bc : Bytecode) : SlotCursors where
  globals := List.replicate bc.stringLiterals.length none

/-- The reasons that are about cache slots. -/
def ValidationReason.IsCachePolicy : ValidationReason → Prop
  | .globalCacheSlotOrder | .cacheSlotOrder _ | .cacheSlotCountMismatch => True
  | _ => False

section Policy

variable {bc : Bytecode} {targeted : List Bool} {pc : Nat} {inst : Instr} {op : Opcode}
  {slots slots' : SlotCursors} {code : List Instr}

/-- A check that never faults a cache slot. -/
def Uncached {α : Type} (v : Validation α) : Prop := ∀ e, v = .error e → ¬e.reason.IsCachePolicy

/-- A check gives what the policy gives, or finds another fault before. -/
def Agrees (v w : Validation SlotCursors) : Prop :=
  v = w ∨ ∃ e, v = .error e ∧ ¬e.reason.IsCachePolicy

theorem agrees_bind {α : Type} {v : Validation α} {f : α → Validation SlotCursors}
    {w : Validation SlotCursors} (hv : Uncached v) (hf : ∀ a, Agrees (f a) w) :
    Agrees (v >>= f) w := by
  cases v with
  | error e => exact .inr ⟨e, rfl, hv e rfl⟩
  | ok a => exact hf a

theorem uncached_bind {α β : Type} {v : Validation α} {f : α → Validation β} (hv : Uncached v)
    (hf : ∀ a, Uncached (f a)) : Uncached (v >>= f) := by
  cases v with
  | error e =>
    rintro e' ⟨⟩
    exact hv e rfl
  | ok a => exact hf a

theorem uncached_ensureAt {p : Prop} [Decidable p] {reason : ValidationReason}
    (h : ¬reason.IsCachePolicy) : Uncached (ensureAt pc p reason) := by
  intro e he
  rw [ensureAt] at he
  split at he
  · cases he
  · cases he
    exact h

theorem uncached_checkRegisters {first count frame : Nat} :
    Uncached (checkRegisters pc first count frame) := uncached_ensureAt id

theorem uncached_countOperand {value limit : Nat} : Uncached (countOperand pc value limit) := by
  intro e he
  rw [countOperand] at he
  split at he
  · cases he
  · split at he
    · cases he
    · cases he
      exact id

theorem uncached_checkPool : Uncached (checkPool bc pc inst) := by
  rw [checkPool]
  split
  · rintro e ⟨⟩
    exact id
  all_goals exact uncached_ensureAt id

theorem uncached_checkArith {operands : ArithOperands} :
    Uncached (checkArith bc pc inst operands) := by
  unfold checkArith
  refine uncached_bind uncached_checkRegisters fun _ => ?_
  cases operands with
  | regReg => exact uncached_bind uncached_checkRegisters fun _ => uncached_checkRegisters
  | regConst => exact uncached_bind uncached_checkRegisters fun _ => uncached_checkPool
  | constReg => exact uncached_bind uncached_checkPool fun _ => uncached_checkRegisters

/-- The verifier's check of an instruction ends with the policy. -/
theorem agrees_checkOperands (bc : Bytecode) (pc : Nat) (inst : Instr) (op : Opcode)
    (slots : SlotCursors) :
    Agrees (checkOperands bc pc inst op slots) (checkSlot pc inst op slots) := by
  cases op <;> simp only [checkOperands, checkSlot]
  case setList =>
    refine agrees_bind uncached_checkRegisters fun _ => ?_
    refine agrees_bind uncached_countOperand fun count => ?_
    cases count with
    | none => exact .inl rfl
    | some count => exact agrees_bind uncached_checkRegisters fun _ => .inl rfl
  case ret =>
    refine agrees_bind uncached_countOperand fun count => ?_
    cases count with
    | none => exact agrees_bind uncached_checkRegisters fun _ => .inl rfl
    | some count => exact agrees_bind uncached_checkRegisters fun _ => .inl rfl
  -- The others make their checks one after the other.
  all_goals
    repeat first
      | exact .inl rfl
      | refine agrees_bind uncached_checkRegisters fun _ => ?_
      | refine agrees_bind uncached_checkPool fun _ => ?_
      | refine agrees_bind uncached_countOperand fun _ => ?_
      | refine agrees_bind uncached_checkArith fun _ => ?_
      | refine agrees_bind (uncached_ensureAt id) fun _ => ?_

theorem agrees_bind_bind {v w : Validation SlotCursors}
    {f g : SlotCursors → Validation SlotCursors} (hv : Agrees v w)
    (hf : ∀ a, Agrees (f a) (g a)) : Agrees (v >>= f) (w >>= g) := by
  rcases hv with rfl | ⟨e, rfl, he⟩
  · cases v with
    | error e => exact .inl rfl
    | ok a => exact hf a
  · exact .inr ⟨e, rfl, he⟩

theorem agrees_checkCode (bc : Bytecode) (targeted : List Bool) (code : List Instr) (pc : Nat)
    (slots : SlotCursors) :
    Agrees (checkCode bc targeted code pc slots) (checkSlots code pc slots) := by
  induction code generalizing pc slots with
  | nil => exact .inl rfl
  | cons inst code ih =>
    rw [checkCode, checkSlots, checkInstr]
    cases inst.opcode with
    | none => exact .inr ⟨_, rfl, id⟩
    | some op =>
      simp only [bind_assoc]
      refine agrees_bind (uncached_ensureAt id) fun _ => ?_
      refine agrees_bind_bind (agrees_checkOperands bc pc inst op slots) fun slots' => ?_
      rw [checkOpenResults, bind_assoc]
      refine agrees_bind (uncached_ensureAt id) fun _ => ?_
      refine agrees_bind (uncached_ensureAt id) fun _ => ?_
      exact ih (pc + 1) slots'

/-- The code of a function is in order only if its slots are. -/
theorem checkSlots_of_checkCode (h : checkCode bc targeted code pc slots = .ok slots') :
    checkSlots code pc slots = .ok slots' := by
  rcases agrees_checkCode bc targeted code pc slots with heq | ⟨e, he, -⟩
  · exact heq.symm.trans h
  · rw [h] at he
    cases he

end Policy

/-! ## The policy accepts the assignment -/

/-- The cursors of the verifier stand where the allocation stands; a name whose slot was
    refused has none. -/
structure SlotAllocation.Tracks (s : SlotAllocation) (slots : SlotCursors) : Prop where
  globals : slots.globals = s.globals.map fun entry => entry.join.map Fin.val
  global : slots.nextGlobal = s.globalLen
  field : slots.nextField = s.fieldLen
  setField : slots.nextSetField = s.setFieldLen
  tforCursor : slots.nextTforCursor = s.tforCursorLen

section Assigned

variable {s : SlotAllocation} {slots : SlotCursors} {pc : Nat} {inst : Instr}

/-- The verifier takes a slot that was allocated, and none where none was. -/
theorem sequential_allocateSlot (len : Nat) (family : CacheFamily) :
    sequential pc ((allocateSlot len).1.map Fin.val) len family = .ok (allocateSlot len).2 := by
  rw [allocateSlot]
  split <;> simp [sequential]

theorem tracks_getGlobal (pc : Nat) (h : s.Tracks slots) (hop : inst.opcode = some .getGlobal) :
    ∃ slots', checkSlot pc (assignInstr s inst).1 .getGlobal slots = .ok slots' ∧
      (assignInstr s inst).2.Tracks slots' := by
  have hname : slots.globals[inst.b]? = (s.globals[inst.b]?).map fun entry =>
      entry.join.map Fin.val := by rw [h.globals, List.getElem?_map]
  simp only [assignInstr, hop]
  cases hs : s.globals[inst.b]? with
  | none => exact ⟨slots, by simp [checkSlot], h⟩
  | some entry =>
    rw [hs, Option.map_some] at hname
    cases entry with
    | some slot =>
      refine ⟨slots, ?_, h⟩
      cases slot with
      | none => simp [checkSlot]
      | some slot =>
        simp [checkSlot, globalRead, hname]
    | none =>
      -- The first read of the name.
      have hset : (s.globals.set inst.b (some none)).map (fun entry => entry.join.map Fin.val) =
          slots.globals := by
        rw [List.map_set, ← h.globals]
        refine List.ext_getElem? fun i => ?_
        rw [List.getElem?_set]
        split
        · rename_i hi
          subst hi
          rw [hname]
          split
          · rfl
          · rename_i hlt
            rw [List.getElem?_eq_none (by omega)] at hname
            cases hname
        · rfl
      by_cases hlt : s.globalLen < MAX_CACHE_SLOTS
      · simp only [allocateSlot, dif_pos hlt]
        refine ⟨{ slots with
            globals := slots.globals.set inst.b (some slots.nextGlobal)
            nextGlobal := slots.nextGlobal + 1 }, ?_, ?_⟩
        · simp [checkSlot, globalRead, hname, h.global]
        · refine ⟨?_, congrArg (· + 1) h.global, h.field, h.setField, h.tforCursor⟩
          rw [List.map_set, ← h.globals, h.global]
          rfl
      · simp only [allocateSlot, dif_neg hlt]
        refine ⟨slots, by simp [checkSlot], ?_⟩
        exact ⟨hset.symm, h.global, h.field, h.setField, h.tforCursor⟩

/-- The verifier follows the assignment of one instruction. -/
theorem tracks_assignInstr (pc : Nat) (inst : Instr) (h : s.Tracks slots) :
    (inst.opcode = none ∧ assignInstr s inst = (inst, s)) ∨
    ∃ op slots', inst.opcode = some op ∧ (assignInstr s inst).1.opcode = some op ∧
      checkSlot pc (assignInstr s inst).1 op slots = .ok slots' ∧
      (assignInstr s inst).2.Tracks slots' := by
  cases hop : inst.opcode with
  | none => exact .inl ⟨rfl, by simp [assignInstr, hop]⟩
  | some op =>
    right
    have hopcode : (assignInstr s inst).1.opcode = some op := by
      unfold assignInstr
      split
      · split <;> simpa using hop
      all_goals simpa using hop
    cases op with
    | getGlobal =>
      obtain ⟨slots', hc, ht⟩ := tracks_getGlobal pc h hop
      exact ⟨_, slots', rfl, hopcode, hc, ht⟩
    | setGlobal =>
      have hcheck : ∃ slots', checkSlot pc (assignInstr s inst).1 .setGlobal slots = .ok slots' ∧
          (assignInstr s inst).2.Tracks slots' := by
        simp only [assignInstr, hop, allocateSlot]
        split
        · refine ⟨{ slots with nextGlobal := slots.nextGlobal + 1 }, ?_, ?_⟩
          · simp [checkSlot, globalWrite, h.global]
          · exact ⟨h.globals, congrArg (· + 1) h.global, h.field, h.setField, h.tforCursor⟩
        · exact ⟨slots, by simp [checkSlot], h⟩
      obtain ⟨slots', hc, ht⟩ := hcheck
      exact ⟨_, slots', rfl, hopcode, hc, ht⟩
    | getField | self =>
      refine ⟨_, { slots with nextField := (allocateSlot s.fieldLen).2 }, rfl, hopcode, ?_, ?_⟩
      · simp only [assignInstr, hop, checkSlot, Instr.cacheSlot_withCacheSlot, h.field,
          sequential_allocateSlot]
        rfl
      · simp only [assignInstr, hop]
        exact ⟨h.globals, h.global, rfl, h.setField, h.tforCursor⟩
    | setField =>
      refine ⟨_, { slots with nextSetField := (allocateSlot s.setFieldLen).2 }, rfl, hopcode, ?_,
        ?_⟩
      · simp only [assignInstr, hop, checkSlot, Instr.cacheSlot_withCacheSlot, h.setField,
          sequential_allocateSlot]
        rfl
      · simp only [assignInstr, hop]
        exact ⟨h.globals, h.global, h.field, rfl, h.tforCursor⟩
    | tforCall =>
      refine ⟨_, { slots with nextTforCursor := (allocateSlot s.tforCursorLen).2 }, rfl, hopcode,
        ?_, ?_⟩
      · simp only [assignInstr, hop, checkSlot, Instr.cacheSlot_withCacheSlot, h.tforCursor,
          sequential_allocateSlot]
        rfl
      · simp only [assignInstr, hop]
        exact ⟨h.globals, h.global, h.field, h.setField, rfl⟩
    | _ =>
      refine ⟨_, slots, rfl, hopcode, rfl, ?_⟩
      simp only [assignInstr, hop]
      exact h

/-- The verifier follows the assignment of all instructions. -/
theorem checkSlots_assignCode (code : List Instr) (pc : Nat) (h : s.Tracks slots) :
    ∃ slots', checkSlots (assignCode code s).1 pc slots = .ok slots' ∧
      (assignCode code s).2.Tracks slots' := by
  induction code generalizing s slots pc with
  | nil => exact ⟨slots, rfl, h⟩
  | cons inst code ih =>
    rw [assignCode]
    simp only [checkSlots]
    rcases tracks_assignInstr pc inst h with
      ⟨hop, heq⟩ | ⟨op, slots', -, hop, hcheck, ht⟩
    · rw [heq]
      simp only [hop]
      exact ih (pc + 1) h
    · obtain ⟨final, hfinal, htracks⟩ := ih (pc + 1) ht
      refine ⟨final, ?_, htracks⟩
      rw [hop]
      simp only [hcheck]
      exact hfinal

end Assigned

/-! ## One key for each slot -/

/-- A family of cache slots. -/
inductive SlotFamily
  | global | field | setField | tforCursor
  deriving DecidableEq, Repr

/-- The family of an opcode's cache operand. -/
def Opcode.slotFamily : Opcode → Option SlotFamily
  | .getGlobal | .setGlobal => some .global
  | .getField | .self => some .field
  | .setField => some .setField
  | .tforCall => some .tforCursor
  | _ => none

/-- The next slot of a family. -/
def SlotCursors.next (slots : SlotCursors) : SlotFamily → Nat
  | .global => slots.nextGlobal
  | .field => slots.nextField
  | .setField => slots.nextSetField
  | .tforCursor => slots.nextTforCursor

/-- The slots of a family that a function declares. -/
def Bytecode.slotCount (bc : Bytecode) : SlotFamily → Nat
  | .global => bc.globalCacheSlots
  | .field => bc.fieldCacheSlots
  | .setField => bc.setFieldCacheSlots
  | .tforCursor => bc.tforCursorSlots

/-- An instruction uses a slot of a family. -/
def Instr.UsesSlot (inst : Instr) (family : SlotFamily) (k : Nat) : Prop :=
  inst.opcode.bind Opcode.slotFamily = some family ∧ inst.cacheSlot = some k

/-- The slots that instructions use are allocated, and those of one slot name one key. A
    slot that is recorded for a name is used for that name. -/
structure Owned (code : List Instr) (slots : SlotCursors) : Prop where
  below : ∀ inst ∈ code, ∀ f k, inst.UsesSlot f k → k < slots.next f
  limit : ∀ f, slots.next f ≤ MAX_CACHE_SLOTS
  keys : ∀ inst ∈ code, ∀ inst' ∈ code, ∀ f k, inst.UsesSlot f k → inst'.UsesSlot f k →
    inst.poolOperand = inst'.poolOperand
  named : ∀ (name k : Nat), slots.globals[name]? = some (some k) → k < slots.nextGlobal ∧
    ∀ inst ∈ code, inst.UsesSlot .global k → inst.poolOperand = some (.string, name)
  distinct : ∀ (n m k : Nat), slots.globals[n]? = some (some k) →
    slots.globals[m]? = some (some k) → n = m

section Owned

variable {bc : Bytecode} {code : List Instr} {slots slots' : SlotCursors} {pc : Nat}
  {inst : Instr} {op : Opcode} {family : SlotFamily} {k : Nat}

/-- An instruction without a slot. -/
theorem Owned.skip (h : Owned code slots) (hno : ∀ f k, ¬inst.UsesSlot f k) :
    Owned (inst :: code) slots where
  distinct := h.distinct
  below i hi f k hu := by
    rcases List.mem_cons.1 hi with rfl | hi
    · exact absurd hu (hno f k)
    · exact h.below i hi f k hu
  limit := h.limit
  keys i hi j hj f k hu hv := by
    rcases List.mem_cons.1 hi with rfl | hi
    · exact absurd hu (hno f k)
    · rcases List.mem_cons.1 hj with rfl | hj
      · exact absurd hv (hno f k)
      · exact h.keys i hi j hj f k hu hv
  named name k hk := by
    refine ⟨(h.named name k hk).1, fun i hi hu => ?_⟩
    rcases List.mem_cons.1 hi with rfl | hi
    · exact absurd hu (hno _ k)
    · exact (h.named name k hk).2 i hi hu

theorem UsesSlot.unique {f : SlotFamily} {k' : Nat} (h : inst.UsesSlot family k)
    (h' : inst.UsesSlot f k') : f = family ∧ k' = k :=
  ⟨Option.some.inj (h'.1.symm.trans h.1), Option.some.inj (h'.2.symm.trans h.2)⟩

/-- An instruction with a slot whose users all name its key. -/
theorem Owned.share (h : Owned code slots) (hu : inst.UsesSlot family k)
    (hk : k < slots.next family)
    (hsame : ∀ i ∈ code, i.UsesSlot family k → i.poolOperand = inst.poolOperand)
    (hnamed : ∀ name : Nat, family = .global → slots.globals[name]? = some (some k) →
      inst.poolOperand = some (.string, name)) : Owned (inst :: code) slots where
  distinct := h.distinct
  below i hi f k' hv := by
    rcases List.mem_cons.1 hi with rfl | hi
    · obtain ⟨rfl, rfl⟩ := UsesSlot.unique hu hv
      exact hk
    · exact h.below i hi f k' hv
  limit := h.limit
  keys i hi j hj f k' hv hw := by
    rcases List.mem_cons.1 hi with rfl | hi'
    · obtain ⟨rfl, rfl⟩ := UsesSlot.unique hu hv
      rcases List.mem_cons.1 hj with rfl | hj'
      · rfl
      · exact (hsame j hj' hw).symm
    · rcases List.mem_cons.1 hj with rfl | hj'
      · obtain ⟨rfl, rfl⟩ := UsesSlot.unique hu hw
        exact hsame i hi' hv
      · exact h.keys i hi' j hj' f k' hv hw
  named name k' hk' := by
    refine ⟨(h.named name k' hk').1, fun i hi hv => ?_⟩
    rcases List.mem_cons.1 hi with rfl | hi
    · obtain ⟨hf, rfl⟩ := UsesSlot.unique hu hv
      exact hnamed name hf.symm hk'
    · exact (h.named name k' hk').2 i hi hv

/-- The cursors after a slot of a family was taken, for a name or not. -/
structure SlotCursors.Takes (slots : SlotCursors) (family : SlotFamily) (name : Option Nat)
    (slots' : SlotCursors) : Prop where
  next : ∀ f, slots'.next f = if f = family then slots.next family + 1 else slots.next f
  globals : ∀ n k : Nat, slots'.globals[n]? = some (some k) →
    slots.globals[n]? = some (some k) ∨ family = .global ∧ name = some n ∧ k = slots.nextGlobal

/-- An instruction that takes the next slot of its family. -/
theorem Owned.take (h : Owned code slots) (name : Option Nat)
    (hu : inst.UsesSlot family (slots.next family)) (ht : slots.Takes family name slots')
    (hname : ∀ n ∈ name, inst.poolOperand = some (.string, n)) : Owned (inst :: code) slots' := by
  have hle : ∀ f, slots.next f ≤ slots'.next f := fun f => by
    rw [ht.next]
    split
    · rename_i hf
      rw [hf]
      exact Nat.le_succ _
    · exact le_refl _
  have hunused : ∀ i ∈ code, ¬i.UsesSlot family (slots.next family) := fun i hi hv =>
    absurd (h.below i hi _ _ hv) (Nat.lt_irrefl _)
  have hlast : slots.next family < slots'.next family := by
    rw [ht.next, if_pos rfl]
    exact Nat.lt_succ_self _
  have hold : Owned code slots' := by
    refine ⟨fun i hi f k hv => Nat.lt_of_lt_of_le (h.below i hi f k hv) (hle f), fun f => ?_,
      h.keys, fun n k hk => ?_, fun n m k hn hm => ?_⟩
    · rw [ht.next]
      split
      · exact inst.cacheSlot_lt hu.2
      · exact h.limit f
    · rcases ht.globals n k hk with hk | ⟨rfl, hn, rfl⟩
      · exact ⟨Nat.lt_of_lt_of_le (h.named n k hk).1 (hle .global), (h.named n k hk).2⟩
      · exact ⟨hlast, fun i hi hv => absurd hv (hunused i hi)⟩
    · have hfresh : ∀ n, slots.globals[n]? ≠ some (some slots.nextGlobal) := fun n hn =>
        absurd (h.named n _ hn).1 (Nat.lt_irrefl _)
      rcases ht.globals n k hn with hn' | ⟨-, hn', rfl⟩ <;>
        rcases ht.globals m _ hm with hm' | ⟨-, hm', hk⟩
      · exact h.distinct n m k hn' hm'
      · exact absurd (hk ▸ hn') (hfresh n)
      · exact absurd hm' (hfresh m)
      · exact Option.some.inj (hn'.symm.trans hm')
  refine hold.share hu hlast (fun i hi hv => absurd hv (hunused i hi)) fun n hf hk => ?_
  subst hf
  rcases ht.globals n _ hk with hk | ⟨-, hn, -⟩
  · exact absurd (h.named n _ hk).1 (Nat.lt_irrefl _)
  · exact hname n hn

theorem owned_globalRead (h : Owned code slots) (hop : inst.opcode = some .getGlobal)
    (hslot : inst.cacheSlot = some k) (hc : globalRead pc inst.b k slots = .ok slots') :
    Owned (inst :: code) slots' := by
  have hu : inst.UsesSlot .global k := ⟨by rw [hop]; rfl, hslot⟩
  have hkey : inst.poolOperand = some (.string, inst.b) := by
    rw [Instr.poolOperand, hop]
    rfl
  rw [globalRead] at hc
  split at hc
  · rename_i expected hname
    split at hc
    · rename_i heq
      cases hc
      subst heq
      obtain ⟨hlt, hall⟩ := h.named _ _ (Option.join_eq_some_iff.1 hname)
      refine h.share hu hlt (fun i hi hv => (hall i hi hv).trans hkey.symm) fun n _ hn => ?_
      rw [hkey, h.distinct n inst.b _ hn (Option.join_eq_some_iff.1 hname)]
    · cases hc
  · rename_i hname
    split at hc
    · rename_i heq
      cases hc
      subst heq
      refine h.take (some inst.b) hu ⟨fun f => ?_, fun n k hk => ?_⟩ ?_
      · cases f <;> rfl
      · rw [List.getElem?_set] at hk
        split at hk
        · rename_i hn
          split at hk
          · exact .inr ⟨rfl, congrArg some hn, (Option.some.inj (Option.some.inj hk)).symm⟩
          · cases hk
        · exact .inl hk
      · rintro n ⟨⟩
        exact hkey
    · cases hc

theorem owned_globalWrite (h : Owned code slots) (hop : inst.opcode = some .setGlobal)
    (hslot : inst.cacheSlot = some k) (hc : globalWrite pc k slots = .ok slots') :
    Owned (inst :: code) slots' := by
  rw [globalWrite] at hc
  split at hc
  · rename_i heq
    cases hc
    subst heq
    have hu : inst.UsesSlot .global slots.nextGlobal := ⟨by rw [hop]; rfl, hslot⟩
    refine h.take none hu ⟨fun f => ?_, fun n k hk => .inl hk⟩ (by simp)
    cases f <;> rfl
  · cases hc

/-- An instruction of a family allocated in instruction order. -/
theorem owned_sequential {next : Nat} {c : CacheFamily} (h : Owned code slots)
    (family : SlotFamily)
    (hop : inst.opcode.bind Opcode.slotFamily = some family)
    (hc : sequential pc inst.cacheSlot (slots.next family) c = .ok next)
    (hnext : ∀ f, slots'.next f = if f = family then next else slots.next f)
    (hglobals : slots'.globals = slots.globals) :
    Owned (inst :: code) slots' := by
  unfold sequential at hc
  split at hc
  · rename_i hslot
    cases hc
    have hsame : ∀ f, slots'.next f = slots.next f := fun f => by
      rw [hnext]
      split <;> simp [*]
    have hskip : Owned (inst :: code) slots := h.skip fun f k hu => by
      rw [hu.2] at hslot
      cases hslot
    refine ⟨fun i hi f k hu => ?_, fun f => ?_, hskip.keys, fun n k hk => ?_, fun n m k => ?_⟩
    · rw [hsame]
      exact hskip.below i hi f k hu
    · rw [hsame]
      exact hskip.limit f
    · rw [hglobals] at hk
      exact ⟨lt_of_lt_of_eq (hskip.named n k hk).1 (hsame .global).symm, (hskip.named n k hk).2⟩
    · rw [hglobals]
      exact hskip.distinct n m k
  · rename_i slot hslot
    split at hc
    · rename_i heq
      cases hc
      subst heq
      exact h.take none ⟨hop, hslot⟩ ⟨hnext, fun n k hk => .inl (hglobals ▸ hk)⟩ (by simp)
    · cases hc

/-- One instruction. -/
theorem owned_checkSlot (h : Owned code slots) (hop : inst.opcode = some op)
    (hc : checkSlot pc inst op slots = .ok slots') : Owned (inst :: code) slots' := by
  have hnone : op.slotFamily = none → ∀ f k, ¬inst.UsesSlot f k := fun hf f k hu => by
    have := hu.1
    rw [hop, Option.bind_some, hf] at this
    cases this
  have hfamily : inst.opcode.bind Opcode.slotFamily = op.slotFamily := by rw [hop]; rfl
  have huncached : inst.cacheSlot = none → ∀ f k, ¬inst.UsesSlot f k := fun hs f k hu => by
    rw [hu.2] at hs
    cases hs
  cases op with
  | getGlobal =>
    simp only [checkSlot] at hc
    split at hc
    · rename_i hslot
      cases hc
      exact h.skip (huncached hslot)
    · rename_i slot hslot
      exact owned_globalRead h hop hslot hc
  | setGlobal =>
    simp only [checkSlot] at hc
    split at hc
    · rename_i hslot
      cases hc
      exact h.skip (huncached hslot)
    · rename_i slot hslot
      exact owned_globalWrite h hop hslot hc
  | getField | self =>
    simp only [checkSlot, bind_eq_ok] at hc
    obtain ⟨next, hs, hc⟩ := hc
    cases hc
    refine owned_sequential h .field hfamily hs (fun f => ?_) rfl
    cases f <;> rfl
  | setField =>
    simp only [checkSlot, bind_eq_ok] at hc
    obtain ⟨next, hs, hc⟩ := hc
    cases hc
    refine owned_sequential h .setField hfamily hs (fun f => ?_) rfl
    cases f <;> rfl
  | tforCall =>
    simp only [checkSlot, bind_eq_ok] at hc
    obtain ⟨next, hs, hc⟩ := hc
    cases hc
    refine owned_sequential h .tforCursor hfamily hs (fun f => ?_) rfl
    cases f <;> rfl
  | _ =>
    cases hc
    exact h.skip (hnone rfl)

/-- All instructions, after those already checked. -/
theorem owned_checkSlots {done : List Instr} (h : Owned done slots)
    (hc : checkSlots code pc slots = .ok slots') : Owned (code.reverse ++ done) slots' := by
  induction code generalizing pc slots done with
  | nil =>
    cases hc
    exact h
  | cons inst code ih =>
    rw [List.reverse_cons, List.append_assoc, List.singleton_append]
    rw [checkSlots] at hc
    split at hc
    · rename_i hop
      refine ih (h.skip fun f k hu => ?_) hc
      have := hu.1
      rw [hop] at this
      cases this
    · rename_i op hop
      obtain ⟨slots₁, hslot, hc⟩ := bind_eq_ok.1 hc
      exact ih (owned_checkSlot h hop hslot) hc

theorem owned_start (bc : Bytecode) : Owned [] (.start bc) := by
  have hnone : ∀ n k : Nat, (SlotCursors.start bc).globals[n]? ≠ some (some k) := by
    intro n k hk
    simp [SlotCursors.start, List.getElem?_replicate] at hk
  refine ⟨by simp, fun f => ?_, by simp, fun n k hk => absurd hk (hnone n k),
    fun n m k hk => absurd hk (hnone n k)⟩
  cases f <;> exact Nat.zero_le _

end Owned

/-! ## The agreement -/

/-- The slots of a function satisfy the policy: the verifier takes each of them, and ends
    at the declared counts. -/
def CacheSlotPolicy (bc : Bytecode) : Prop :=
  ∃ slots, checkSlots bc.code 0 (.start bc) = .ok slots ∧ checkSlotCounts bc slots = .ok ()

/-- Each slot in use stands for one key and is declared, and no family declares more
    slots than an operand can name. -/
structure OneKeyPerSlot (bc : Bytecode) : Prop where
  keys : ∀ inst ∈ bc.code, ∀ inst' ∈ bc.code, ∀ family k, inst.UsesSlot family k →
    inst'.UsesSlot family k → inst.poolOperand = inst'.poolOperand
  below : ∀ inst ∈ bc.code, ∀ family k, inst.UsesSlot family k → k < bc.slotCount family
  limit : ∀ family, bc.slotCount family ≤ 255

section Agreement

variable {bc : Bytecode}

theorem slotPolicy_assign (bc : Bytecode) : CacheSlotPolicy bc.assignCacheSlots := by
  have htracks : (SlotAllocation.start bc).Tracks (.start bc) := by
    refine ⟨?_, rfl, rfl, rfl, rfl⟩
    simp [SlotAllocation.start, SlotCursors.start]
  obtain ⟨slots, hcheck, ht⟩ := checkSlots_assignCode bc.code 0 htracks
  refine ⟨slots, hcheck, ?_⟩
  rw [checkSlotCounts, ensure_eq_ok]
  exact ⟨ht.global.symm, ht.field.symm, ht.setField.symm, ht.tforCursor.symm⟩

theorem uncached_markTargets {codeLen pc : Nat} {code : List Instr} {targeted : List Bool} :
    Uncached (markTargets codeLen code pc targeted) := by
  induction code generalizing pc targeted with
  | nil => rintro e ⟨⟩
  | cons inst code ih =>
    rw [markTargets]
    split
    · split
      · exact ih
      · rintro e ⟨⟩
        exact id
    · exact ih

theorem uncached_checkTemplate {template : List Nat} {index : Nat} {seen : List (List UInt8)} :
    Uncached (checkTemplate bc index template seen) := by
  induction template generalizing seen with
  | nil => rintro e ⟨⟩
  | cons key keys ih =>
    rw [checkTemplate]
    split
    · rintro e ⟨⟩
      exact id
    · split
      · rintro e ⟨⟩
        exact id
      · exact ih

theorem uncached_checkTemplates {templates : List (List Nat)} {index : Nat} :
    Uncached (checkTemplates bc templates index) := by
  induction templates generalizing index with
  | nil => rintro e ⟨⟩
  | cons template templates ih => exact uncached_bind uncached_checkTemplate fun _ => ih

theorem uncached_ensure {p : Prop} [Decidable p] {reason : ValidationReason}
    (h : ¬reason.IsCachePolicy) : Uncached (ensure p reason) := by
  intro e he
  rw [ensure] at he
  split at he
  · cases he
  · cases he
    exact h

theorem uncached_checkHeader : Uncached (checkHeader bc) := by
  rw [checkHeader]
  repeat refine uncached_bind (uncached_ensure id) fun _ => ?_
  exact uncached_bind (uncached_ensureAt id) fun _ => uncached_checkTemplates

/-- A function that satisfies the policy is not rejected for its cache slots. -/
theorem uncached_of_slotPolicy (h : CacheSlotPolicy bc) : Uncached (validateBytecode bc) := by
  obtain ⟨slots, hslots, hcounts⟩ := h
  rw [validateBytecode]
  refine uncached_bind uncached_checkHeader fun _ => ?_
  refine uncached_bind uncached_markTargets fun targeted => ?_
  intro e he
  rcases agrees_checkCode bc targeted bc.code 0 (.start bc) with heq | ⟨e', he', hne⟩
  · -- The policy passes, and so do the counts.
    have hcode : checkCode bc targeted bc.code 0 (.start bc) = .ok slots := heq.trans hslots
    simp only [SlotCursors.start] at hcode
    rw [hcode] at he
    exact absurd (he.symm.trans hcounts) (by simp)
  · simp only [SlotCursors.start] at he'
    rw [he'] at he
    cases he
    exact hne

theorem oneKeyPerSlot_of_valid (h : validateBytecode bc = .ok ()) : OneKeyPerSlot bc := by
  simp only [validateBytecode, bind_eq_ok] at h
  obtain ⟨_, -, targeted, -, slots, hcode, hcounts⟩ := h
  have hslots : checkSlots bc.code 0 (.start bc) = .ok slots := checkSlots_of_checkCode hcode
  have howned := owned_checkSlots (owned_start bc) hslots
  simp only [checkSlotCounts, ensure_eq_ok] at hcounts
  obtain ⟨hg, hf, hs, ht⟩ := hcounts
  have hcount : ∀ family, bc.slotCount family = slots.next family := by
    intro family
    cases family <;> assumption
  have hmem : ∀ inst ∈ bc.code, inst ∈ bc.code.reverse ++ [] := by simp
  refine ⟨fun i hi j hj => howned.keys i (hmem i hi) j (hmem j hj), fun i hi f k hu => ?_,
    fun f => ?_⟩
  · rw [hcount]
    exact howned.below i (hmem i hi) f k hu
  · rw [hcount]
    exact howned.limit f

/-- The compiler's assignment satisfies the verifier's policy, so that it is never the
    reason for a rejection; it does not depend on what the cache operands held; and in
    every function the verifier accepts each slot stands for one key. -/
theorem cache_slots_agree (bc : Bytecode) :
    CacheSlotPolicy bc.assignCacheSlots ∧
    (∀ e, validateBytecode bc.assignCacheSlots = .error e → ¬e.reason.IsCachePolicy) ∧
    (∀ code, code.map Instr.clearCache = bc.code.map Instr.clearCache →
      { bc with code := code }.assignCacheSlots = bc.assignCacheSlots) ∧
    bc.assignCacheSlots.assignCacheSlots = bc.assignCacheSlots ∧
    (validateBytecode bc = .ok () → OneKeyPerSlot bc) :=
  ⟨slotPolicy_assign bc, uncached_of_slotPolicy (slotPolicy_assign bc),
    fun _ h => assign_congr bc h, assign_assign bc, oneKeyPerSlot_of_valid⟩

end Agreement

end Dellingr
