import Dellingr.Vm.SaveState.Codec

/-!
# The save format is faithful and canonical

Every writer of the save format and its reader satisfy the law of codecs
(`Codec.Codes`), field by field: what is written is read back, and what is read
is what is written. So a payload whose lengths fit the format survives
(`decodeBytes_encodeBytes`), and a byte string the decoder accepts is the one
spelling of its payload (`encodeBytes_decodeBytes`).
-/

namespace Dellingr

open Codec Encoder Decoder

/-- The law of a codec for all the values of a type. -/
abbrev Lawful {α : Type} (w : α → EncodeM Unit) (r : DecodeM α) : Prop := Codes (fun _ => True) w r

variable {α : Type}

/-! ## Numbers -/

theorem run_readExact (n : Nat) (bytes : List UInt8) (pos : Nat) :
    ((readExact n).run bytes).run pos =
      if 2 ^ 64 ≤ pos + n then .error (.decodeError pos .lengthOverflow)
      else if pos + n ≤ bytes.length then .ok ((bytes.drop pos).take n, pos + n)
      else .error (.decodeError pos .truncatedPayload) := by
  have hrun : ((readExact n).run bytes).run pos =
      ((if 2 ^ 64 ≤ pos + n then rejectWith (.decodeError pos .lengthOverflow)
        else if pos + n ≤ bytes.length then do
          set (pos + n)
          pure ((bytes.drop pos).take n)
        else rejectWith (.decodeError pos .truncatedPayload) : DecodeM _).run bytes).run pos := rfl
  rw [hrun]
  split
  · rfl
  · split <;> rfl

theorem codes_exact (n : Nat) :
    Codes (fun bs : List UInt8 => bs.length = n) (put : List UInt8 → EncodeM Unit) (readExact n) where
  read {before rest bs stop} hr := by
    rw [Reads, run_readExact, List.drop_left, List.length_append] at hr
    split at hr
    · cases hr
    · split at hr
      · cases hr
        have hlen : (rest.take n).length = n := by
          rw [List.length_take]
          omega
        exact ⟨hlen, rest.take n, rest.drop n, (List.take_append_drop n rest).symm, by rw [hlen],
          writes_put.2 rfl⟩
      · cases hr
  write {before bs after a} ha hw hn := by
    obtain rfl := writes_put.1 hw
    subst ha
    rw [Reads, run_readExact, List.drop_left, List.take_left]
    simp only [List.length_append] at hn ⊢
    rw [if_neg (by omega), if_pos (by omega)]

/-- Numbers of a fixed width. -/
theorem codes_le (width : Nat) (toNat : α → Nat) (ofNat : Nat → α) (hlt : ∀ a, toNat a < 256 ^ width)
    (hof : ∀ a, ofNat (toNat a) = a) (hto : ∀ n < 256 ^ width, toNat (ofNat n) = n) :
    Lawful (fun a => put (leBytes width (toNat a)))
      (do let bytes ← readExact width; pure (ofNat (ofLeBytes bytes))) := by
  refine (codes_exact width).map (fun bytes => ofNat (ofLeBytes bytes))
    (fun bytes hlen => ⟨trivial, fun bs => ?_⟩) fun a _ => ⟨leBytes width (toNat a), ?_, ?_⟩
  · have hbytes := ofLeBytes_lt bytes
    have hle := leBytes_ofLeBytes bytes
    rw [hlen] at hbytes hle
    rw [hto _ hbytes, hle]
  · exact length_leBytes ..
  · rw [ofLeBytes_leBytes (hlt a), hof]

theorem lawful_u8 : Lawful writeU8 readU8 := by
  refine (codes_exact 1).map (fun bytes => bytes.headD 0) (fun bytes hlen => ⟨trivial, fun bs => ?_⟩)
    fun n _ => ⟨[n], rfl, rfl⟩
  obtain ⟨b, rfl⟩ := List.length_eq_one_iff.1 hlen
  exact Iff.rfl

theorem lawful_u16 : Lawful writeU16 readU16 :=
  codes_le 2 UInt16.toNat UInt16.ofNat UInt16.toNat_lt (fun _ => UInt16.ofNat_toNat)
    fun _ h => UInt16.toNat_ofNat_of_lt' h

theorem lawful_u32 : Lawful writeU32 readU32 :=
  codes_le 4 UInt32.toNat UInt32.ofNat UInt32.toNat_lt (fun _ => UInt32.ofNat_toNat)
    fun _ h => UInt32.toNat_ofNat_of_lt' h

theorem lawful_u64 : Lawful writeU64 readU64 :=
  codes_le 8 UInt64.toNat UInt64.ofNat UInt64.toNat_lt (fun _ => UInt64.ofNat_toNat)
    fun _ h => UInt64.toNat_ofNat_of_lt' h

theorem lawful_i64 : Lawful writeI64 readI64 :=
  codes_le 8 (fun n : Int64 => n.toUInt64.toNat) (fun n => (UInt64.ofNat n).toInt64)
    (fun n => n.toUInt64.toNat_lt) (fun n => by rw [UInt64.ofNat_toNat]; rfl)
    fun _ h => UInt64.toNat_ofNat_of_lt' h

theorem lawful_bool : Lawful writeBool readBool := by
  refine (lawful_u8.field (P := fun _ => True) (fun b : Bool => if b then 1 else 0)
    (W := fun _ => pure ()) (fun _ _ => trivial) fun byte _ => ?_).congr (fun _ => Iff.rfl) fun b _ bs => ?_
  · split
    · rename_i h
      refine (Codes.pure false).congr (fun b => ?_) fun _ _ _ => Iff.rfl
      cases b <;> simp [h]
    · split
      · rename_i h
        refine (Codes.pure true).congr (fun b => ?_) fun _ _ _ => Iff.rfl
        cases b <;> simp [h]
      · rename_i h₀ h₁
        refine Codes.position fun pos => Codes.fail fun b => ?_
        cases b <;> simp [Ne.symm h₀, Ne.symm h₁]
  · simp [writeBool]

/-! ## Byte fields -/

theorem codes_len :
    Codes (fun n => n < 2 ^ 32) (fun n => writeU32 (.ofNat n)) readLen :=
  lawful_u32.map UInt32.toNat (fun n _ => ⟨n.toNat_lt, fun bs => by rw [UInt32.ofNat_toNat]⟩)
    fun n hn => ⟨.ofNat n, trivial, UInt32.toNat_ofNat_of_lt' hn⟩

theorem lawful_bytes (field : SnapshotField) : Lawful (writeBytes · field) (readBounded field) := by
  refine (codes_len.field (P := fun bs : List UInt8 => bs.length < 2 ^ 32 ∧ bs.length ≤ field.limit)
    List.length (W := put) (fun bs hbs => hbs.1) fun len hlen => ?_).guard fun bytes bs => ?_
  · split
    · exact Codes.fail fun bs hbs => by omega
    · refine (codes_exact len).congr (fun bs => ?_) fun _ _ _ => Iff.rfl
      omega
  · rw [writeBytes]
    split
    · rename_i h
      exact ⟨fun hw => ⟨h, hw⟩, And.right⟩
    · rename_i h
      exact ⟨fun hw => absurd hw not_writes_refuse, fun hw => absurd hw.1 h⟩

/-- UTF-8 bytes are the bytes of one string. -/
theorem fromUtf8_eq_some {bytes : List UInt8} {s : String} :
    fromUtf8 bytes = some s ↔ asBytes s = bytes := by
  rw [fromUtf8, String.fromUTF8?, asBytes]
  constructor
  · intro h
    split at h
    · cases h
      rfl
    · cases h
  · rintro rfl
    have hs : (⟨s.toByteArray.data.toList.toArray⟩ : ByteArray) = s.toByteArray := by simp
    rw [hs, dif_pos s.isValidUTF8]
    rfl

theorem lawful_string (field : SnapshotField) : Lawful (writeString · field) (readString field) := by
  refine Codes.position fun start => (lawful_bytes field).mapOption fromUtf8 ?_ ?_
  · intro bytes s _ hs
    rw [← fromUtf8_eq_some.1 hs]
    exact ⟨trivial, fun _ => Iff.rfl⟩
  · exact fun s _ => ⟨asBytes s, trivial, fromUtf8_eq_some.2 rfl⟩

/-- A flag, then a value if it is set. -/
theorem lawful_option {w : α → EncodeM Unit} {r : DecodeM α} (h : Lawful w r)
    {wo : Option α → EncodeM Unit} (hsome : ∀ a, wo (some a) = do writeBool true; w a)
    (hnone : wo none = writeBool false) :
    Lawful wo (do
      let present ← readBool
      if present then do
        let a ← r
        pure (some a)
      else pure none) := by
  refine (lawful_bool.field (P := fun _ => True) Option.isSome
    (W := fun o => o.elim (pure ()) w) (fun _ _ => trivial)
    fun present _ => ?_).congr (fun _ => Iff.rfl) fun o _ bs => ?_
  · cases present with
    | false =>
      refine (Codes.pure none).congr (fun o => ?_) fun o ho _ => ?_
      · cases o <;> simp
      · cases o with
        | none => exact Iff.rfl
        | some a => simp at ho
    | true =>
      refine h.map some (fun a _ => ⟨⟨trivial, rfl⟩, fun _ => Iff.rfl⟩) ?_
      rintro (_ | a) ⟨-, ho⟩
      · simp at ho
      · exact ⟨a, trivial, rfl⟩
  · cases o with
    | none => simp [hnone]
    | some a => rw [hsome]; rfl

theorem lawful_optionString (field : SnapshotField) :
    Lawful (writeOptionString · field) (readOptionString field) :=
  lawful_option (lawful_string field) (fun _ => rfl) rfl

theorem lawful_optionBytes (field : SnapshotField) :
    Lawful (writeOptionBytes · field) (readOptionBytes field) :=
  lawful_option (lawful_bytes field) (fun _ => rfl) rfl

/-! ## Collections -/

theorem lawful_vec {w : α → EncodeM Unit} {r : DecodeM α} (h : Lawful w r) (c : SaveCollection) :
    Lawful (writeVec c w) (readVec r) := by
  refine (codes_len.field (P := fun as : List α => as.length < 2 ^ 32) List.length (W := putItems w)
    (fun as has => has) fun len hlen => ?_).guard fun as bs => ?_
  · refine (h.items len).congr (fun as => ?_) fun _ _ _ => Iff.rfl
    constructor
    · rintro ⟨rfl, -⟩
      exact ⟨hlen, rfl⟩
    · rintro ⟨-, rfl⟩
      exact ⟨rfl, fun _ _ => trivial⟩
  · rw [writeVec, writeLen]
    split
    · rename_i h
      exact ⟨fun hw => ⟨h, hw⟩, And.right⟩
    · rename_i h
      refine ⟨fun hw => ?_, fun hw => absurd hw.1 h⟩
      obtain ⟨_, _, hw, -⟩ := writes_bind.1 hw
      exact absurd hw not_writes_refuse

/-! ## Values and objects -/

/-- A tag, by its number. -/
theorem eq_of_toNat {t : UInt8} {n : Nat} (h : t.toNat = n) : t = .ofNat n := by
  rw [← h, UInt8.ofNat_toNat]

namespace SavedVal

/-- The tag of a value. -/
def tag : SavedVal → UInt8
  | nil => 0
  | bool false => 1
  | bool true => 2
  | num _ => 3
  | str _ => 4
  | obj _ => 5
  | fn _ => 6
  | envObj _ => 7

/-- What follows the tag of a value. -/
def encodeBody : SavedVal → EncodeM Unit
  | num bits => writeU64 bits
  | str id => writeU32 id
  | obj id => writeU32 id
  | fn id => writeString id .functionId
  | envObj token => writeString token .environmentToken
  | _ => pure ()

theorem codes_decodeTagged (offset : Nat) (t : UInt8) :
    Codes (fun v => tag v = t) encodeBody (decodeTagged offset t) := by
  rw [decodeTagged]
  split
  · rename_i ht
    refine Codes.constant nil (fun v => ?_) rfl
    rcases v with _ | (_ | _) | _ | _ | _ | _ | _ <;> simp [tag, eq_of_toNat ht]
  · rename_i ht
    refine Codes.constant (bool false) (fun v => ?_) rfl
    rcases v with _ | (_ | _) | _ | _ | _ | _ | _ <;> simp [tag, eq_of_toNat ht]
  · rename_i ht
    refine Codes.constant (bool true) (fun v => ?_) rfl
    rcases v with _ | (_ | _) | _ | _ | _ | _ | _ <;> simp [tag, eq_of_toNat ht]
  · rename_i ht
    refine Codes.constructor lawful_u64 num (fun v => ?_) fun _ => rfl
    rcases v with _ | (_ | _) | _ | _ | _ | _ | _ <;> simp [tag, eq_of_toNat ht]
  · rename_i ht
    refine Codes.constructor lawful_u32 str (fun v => ?_) fun _ => rfl
    rcases v with _ | (_ | _) | _ | _ | _ | _ | _ <;> simp [tag, eq_of_toNat ht]
  · rename_i ht
    refine Codes.constructor lawful_u32 obj (fun v => ?_) fun _ => rfl
    rcases v with _ | (_ | _) | _ | _ | _ | _ | _ <;> simp [tag, eq_of_toNat ht]
  · rename_i ht
    refine Codes.constructor (lawful_string .functionId) fn (fun v => ?_) fun _ => rfl
    rcases v with _ | (_ | _) | _ | _ | _ | _ | _ <;> simp [tag, eq_of_toNat ht]
  · rename_i ht
    refine Codes.constructor (lawful_string .environmentToken) envObj (fun v => ?_) fun _ => rfl
    rcases v with _ | (_ | _) | _ | _ | _ | _ | _ <;> simp [tag, eq_of_toNat ht]
  · rename_i h₀ h₁ h₂ h₃ h₄ h₅ h₆ h₇
    refine Codes.fail fun v hv => ?_
    subst hv
    rcases v with _ | (_ | _) | _ | _ | _ | _ | _
    exacts [h₀ rfl, h₁ rfl, h₂ rfl, h₃ rfl, h₄ rfl, h₅ rfl, h₆ rfl, h₇ rfl]

theorem lawful : Lawful encode decode := by
  refine (Codes.position fun offset => lawful_u8.tagged (codes_decodeTagged offset)).congr
    (fun _ => Iff.rfl) fun v _ bs => ?_
  rcases v with _ | (_ | _) | _ | _ | _ | _ | _
  · simp [tag, encodeBody, encode]
  · simp [tag, encodeBody, encode]
  · simp [tag, encodeBody, encode]
  all_goals exact Iff.rfl

end SavedVal

theorem lawful_metatable : Lawful encodeMetatable decodeMetatable :=
  lawful_option SavedVal.lawful (fun _ => rfl) rfl

theorem lawful_entry : Lawful encodeEntry decodeEntry :=
  (SavedVal.lawful.pair SavedVal.lawful).congr (fun _ => iff_of_eq (and_self _)) fun _ _ _ => Iff.rfl

namespace SavedObject

/-- The tag of an object. -/
def tag : SavedObject → UInt8
  | table .. => 0
  | closure .. => 1

/-- What follows the tag of an object. -/
def encodeBody : SavedObject → EncodeM Unit
  | table arrayLen arraySlots entries metatable => do
    writeU64 arrayLen
    writeU32 arraySlots
    writeVec .tableEntries encodeEntry entries
    encodeMetatable metatable
  | closure chunk upvalues => do
    writeU32 chunk
    writeVec .closureUpvalues writeU32 upvalues

theorem codes_decodeTagged (offset : Nat) (t : UInt8) :
    Codes (fun o => tag o = t) encodeBody (decodeTagged offset t) := by
  rw [decodeTagged]
  split
  · rename_i ht
    have htable := lawful_u64.pair (lawful_u32.pair
      ((lawful_vec lawful_entry .tableEntries).pair lawful_metatable))
    have := htable.map (P := fun o => tag o = t) (W := encodeBody)
      (fun p => table p.1 p.2.1 p.2.2.1 p.2.2.2)
      (fun p _ => ⟨(eq_of_toNat ht).symm, fun _ => Iff.rfl⟩) ?_
    · simpa only [bind_assoc, pure_bind] using this
    · rintro (⟨a, b, c, d⟩ | _) ho
      · exact ⟨(a, b, c, d), by simp, rfl⟩
      · rw [eq_of_toNat ht] at ho
        cases ho
  · rename_i ht
    have hclosure := lawful_u32.pair (lawful_vec lawful_u32 .closureUpvalues)
    have := hclosure.map (P := fun o => tag o = t) (W := encodeBody) (fun p => closure p.1 p.2)
      (fun p _ => ⟨(eq_of_toNat ht).symm, fun _ => Iff.rfl⟩) ?_
    · simpa only [bind_assoc, pure_bind] using this
    · rintro (_ | ⟨a, b⟩) ho
      · rw [eq_of_toNat ht] at ho
        cases ho
      · exact ⟨(a, b), by simp, rfl⟩
  · rename_i h₀ h₁
    refine Codes.fail fun o ho => ?_
    subst ho
    cases o
    · exact h₀ rfl
    · exact h₁ rfl

theorem lawful : Lawful encode decode := by
  refine (Codes.position fun offset => lawful_u8.tagged (codes_decodeTagged offset)).congr
    (fun _ => Iff.rfl) fun o _ bs => ?_
  cases o <;> exact Iff.rfl

end SavedObject

/-! ## Bytecode -/

namespace SavedUpvalueDesc

/-- The tag of a descriptor. -/
def tag : SavedUpvalueDesc → UInt8
  | «local» _ => 0
  | upvalue _ => 1

/-- The slot of a descriptor. -/
def slot : SavedUpvalueDesc → UInt8
  | «local» idx => idx
  | upvalue idx => idx

theorem codes_decodeTagged (offset : Nat) (t : UInt8) :
    Codes (fun d => tag d = t) (fun d => writeU8 d.slot) (decodeTagged offset t) := by
  rw [decodeTagged]
  split
  · rename_i ht
    refine Codes.constructor lawful_u8 «local» (fun d => ?_) fun _ => rfl
    cases d <;> simp [tag, eq_of_toNat ht]
  · rename_i ht
    refine Codes.constructor lawful_u8 upvalue (fun d => ?_) fun _ => rfl
    cases d <;> simp [tag, eq_of_toNat ht]
  · rename_i h₀ h₁
    refine Codes.fail fun d hd => ?_
    subst hd
    cases d
    · exact h₀ rfl
    · exact h₁ rfl

theorem lawful : Lawful encode decode := by
  refine (Codes.position fun offset => lawful_u8.tagged (codes_decodeTagged offset)).congr
    (fun _ => Iff.rfl) fun d _ bs => ?_
  cases d <;> exact Iff.rfl

end SavedUpvalueDesc

/-- A field that is written whatever the others are. -/
theorem Lawful.field {β : Type} {w : α → EncodeM Unit} {r : DecodeM α} {P : β → Prop}
    {W : β → EncodeM Unit} {k : α → DecodeM β} (h : Lawful w r) (proj : β → α)
    (hk : ∀ a, Codes (fun b => P b ∧ proj b = a) W (k a)) :
    Codes P (fun b => do w (proj b); W b) (r >>= k) :=
  Codes.field h proj (fun _ _ => trivial) fun a _ => hk a

/-- The last field of a record. -/
theorem Lawful.last {β : Type} {w : α → EncodeM Unit} {r : DecodeM α} {P : β → Prop} (h : Lawful w r)
    (proj : β → α) (f : α → β) (hf : ∀ a b, P b ∧ proj b = a ↔ b = f a) :
    Codes P (fun b => w (proj b)) (do let a ← r; pure (f a)) := by
  refine h.map f (fun a _ => ?_) fun b hb => ⟨proj b, trivial, ((hf _ b).1 ⟨hb, rfl⟩).symm⟩
  obtain ⟨hp, ha⟩ := (hf a (f a)).2 rfl
  exact ⟨hp, fun bs => by rw [ha]⟩

theorem SavedBytecode.lawful : Lawful SavedBytecode.encode SavedBytecode.decode := by
  have hwords := lawful_vec lawful_u64
  have hids := lawful_vec lawful_u32
  refine (hwords .instructions).field SavedBytecode.code fun _ => ?_
  refine (hwords .numberLiterals).field SavedBytecode.numberLiterals fun _ => ?_
  refine (lawful_vec (lawful_bytes .luaString) .stringLiterals).field SavedBytecode.stringLiterals fun _ => ?_
  refine (lawful_vec (lawful_vec lawful_u16 .tableTemplateKeys) .tableTemplates).field
    SavedBytecode.tableTemplates fun _ => ?_
  refine lawful_u8.field SavedBytecode.globalCacheSlots fun _ => ?_
  refine lawful_u8.field SavedBytecode.fieldCacheSlots fun _ => ?_
  refine lawful_u8.field SavedBytecode.setFieldCacheSlots fun _ => ?_
  refine lawful_u8.field SavedBytecode.tforCursorSlots fun _ => ?_
  refine lawful_u8.field SavedBytecode.numParams fun _ => ?_
  refine lawful_u8.field SavedBytecode.numLocals fun _ => ?_
  refine lawful_u16.field SavedBytecode.maxStack fun _ => ?_
  refine (hids .nestedChunks).field SavedBytecode.nested fun _ => ?_
  refine (lawful_vec SavedUpvalueDesc.lawful .upvalueDescriptors).field SavedBytecode.upvalues fun _ => ?_
  refine lawful_bool.field SavedBytecode.isVararg fun _ => ?_
  refine (lawful_optionString .chunkName).field SavedBytecode.name fun _ => ?_
  refine lawful_u32.field SavedBytecode.definedLine fun _ => ?_
  refine (lawful_optionBytes .chunkSource).field SavedBytecode.source fun _ => ?_
  refine (hids .lineInfo).last SavedBytecode.lineInfo _ fun _ b => ?_
  cases b
  simp only [SavedBytecode.mk.injEq, true_and, and_assoc]

theorem SavedEnvRecord.lawful : Lawful SavedEnvRecord.encode SavedEnvRecord.decode := by
  refine (lawful_string .environmentToken).field SavedEnvRecord.token fun _ => ?_
  refine SavedObject.lawful.field SavedEnvRecord.table fun _ => ?_
  refine (lawful_vec SavedVal.lawful .environmentPins).last SavedEnvRecord.pins _ fun _ b => ?_
  cases b
  simp only [SavedEnvRecord.mk.injEq, true_and, and_assoc]

/-! ## Cost -/

theorem lawful_weights (n : Nat) :
    Lawful (fun weights : Vector UInt32 n => putItems writeU32 weights.toList) (readWeights n) := by
  induction n with
  | zero =>
    refine (Codes.pure #v[]).congr (fun v => ?_) fun v _ bs => ?_
    · simp
    · obtain rfl : v = #v[] := by simp
      exact Iff.rfl
  | succ n ih =>
    have := (ih.pair lawful_u32).map (P := fun _ => True)
      (W := fun weights : Vector UInt32 (n + 1) => putItems writeU32 weights.toList)
      (fun p => p.1.push p.2) (fun p _ => ⟨trivial, fun bs => ?_⟩)
      fun v _ => ⟨(v.pop, v.back), ⟨trivial, trivial⟩, Vector.push_pop_back v⟩
    · simpa only [readWeights, bind_assoc, pure_bind] using this
    · rw [Vector.toList_push, writes_putItems_append]
      simp [putItems]

/-- The tag of a costing. -/
def Costing.tag : Costing → UInt8
  | .metered _ => 0
  | .off => 1

/-- What follows the tag of a costing. -/
def Costing.encodeBody : Costing → EncodeM Unit
  | .metered model => putItems writeU32 model.weights.toList
  | .off => pure ()

theorem codes_readCostingTagged (offset : Nat) (t : UInt8) :
    Codes (fun c => Costing.tag c = t) Costing.encodeBody (readCostingTagged offset t) := by
  rw [readCostingTagged]
  split
  · rename_i ht
    refine Codes.constructor (lawful_weights _) (fun weights => Costing.metered ⟨weights⟩)
      (fun c => ?_) fun _ => rfl
    rcases c with ⟨⟨weights⟩⟩ | _ <;> simp [Costing.tag, eq_of_toNat ht]
  · rename_i ht
    refine Codes.constant Costing.off (fun c => ?_) rfl
    cases c <;> simp [Costing.tag, eq_of_toNat ht]
  · rename_i h₀ h₁
    refine Codes.fail fun c hc => ?_
    subst hc
    cases c
    · exact h₀ rfl
    · exact h₁ rfl

theorem lawful_costing : Lawful writeCosting readCosting := by
  refine (Codes.position fun offset => lawful_u8.tagged (codes_readCostingTagged offset)).congr
    (fun _ => Iff.rfl) fun c _ bs => ?_
  cases c with
  | metered model => exact Iff.rfl
  | off => simp [Costing.tag, Costing.encodeBody, writeCosting]

/-- The fields of a snapshot are those of one accounting, if any. -/
theorem SavedCost.fromSnapshot_eq_some {costing : Costing} {remaining limit : Int64}
    {configured : Bool} {used : UInt64} {c : SavedCost} :
    SavedCost.fromSnapshot costing remaining limit configured used = some c ↔
      c.1.costing = costing ∧ c.1.remaining = remaining ∧ c.1.limit = limit ∧
        c.1.budget.isSome = configured ∧ c.1.used = used := by
  have hval : ∀ c : SavedCost, SavedCost.fromSnapshot costing remaining limit configured used = some c ↔
      CostState.fromSnapshot costing remaining limit configured used = some c.1 := by
    intro c
    rw [SavedCost.fromSnapshot]
    split
    · rename_i s hs
      simp [hs, Subtype.ext_iff]
    · rename_i hs
      simp [hs]
  rw [hval]
  constructor
  · intro h
    obtain ⟨hcons, hfields⟩ := CostState.consistent_of_fromSnapshot h
    refine ⟨hcons.same, ?_⟩
    simpa [CostState.snapshotFields] using hfields
  · rintro ⟨rfl, rfl, rfl, rfl, rfl⟩
    exact c.2.consistent.fromSnapshot

theorem lawful_cost : Lawful writeCost readCost := by
  refine lawful_costing.field (fun c : SavedCost => c.1.costing) fun _ => Codes.position fun offset => ?_
  refine lawful_i64.field (fun c : SavedCost => c.1.remaining) fun _ => ?_
  refine lawful_i64.field (fun c : SavedCost => c.1.limit) fun _ => ?_
  refine lawful_bool.field (fun c : SavedCost => c.1.budget.isSome) fun _ => ?_
  refine lawful_u64.mapOption _ (fun used c _ hc => ?_) fun c hc => ⟨c.1.used, trivial, ?_⟩
  · obtain ⟨h₁, h₂, h₃, h₄, rfl⟩ := SavedCost.fromSnapshot_eq_some.1 hc
    exact ⟨⟨⟨⟨⟨trivial, h₁⟩, h₂⟩, h₃⟩, h₄⟩, fun _ => Iff.rfl⟩
  · obtain ⟨⟨⟨⟨-, h₁⟩, h₂⟩, h₃⟩, h₄⟩ := hc
    exact SavedCost.fromSnapshot_eq_some.2 ⟨h₁, h₂, h₃, h₄, rfl⟩

/-! ## The payload -/

theorem lawful_pointerId : Lawful encodePointerId decodePointerId :=
  (SavedVal.lawful.pair lawful_u64).congr (fun _ => iff_of_eq (and_self _)) fun _ _ _ => Iff.rfl

theorem SavePayload.lawful : Lawful SavePayload.encode SavePayload.decode := by
  have hvals := lawful_vec SavedVal.lawful
  refine lawful_bool.field SavePayload.hasStandardEnvironment fun _ => ?_
  refine lawful_u64.field SavePayload.rngState fun _ => ?_
  refine lawful_cost.field SavePayload.cost fun _ => ?_
  refine (lawful_vec (lawful_bytes .luaString) .strings).field SavePayload.strings fun _ => ?_
  refine (lawful_vec SavedBytecode.lawful .chunks).field SavePayload.bytecode fun _ => ?_
  refine (hvals .upvalues).field SavePayload.upvalues fun _ => ?_
  refine (lawful_vec SavedObject.lawful .objects).field SavePayload.objects fun _ => ?_
  refine SavedObject.lawful.field SavePayload.globals fun _ => ?_
  refine (hvals .globals).field SavePayload.globalPins fun _ => ?_
  refine lawful_bool.field SavePayload.globalsSealed fun _ => ?_
  refine (lawful_vec SavedEnvRecord.lawful .environmentTables).field SavePayload.envTables fun _ => ?_
  refine lawful_u64.field SavePayload.nextFormatPointerId fun _ => ?_
  refine (lawful_vec lawful_pointerId .formatPointerIds).last SavePayload.formatPointerIds _ fun _ p => ?_
  cases p
  simp only [SavePayload.mk.injEq, true_and, and_assoc]

/-! ## Lengths that fit -/

/-- The texts of a value fit their fields. -/
def SavedVal.Fits : SavedVal → Prop
  | fn id => (asBytes id).length ≤ SnapshotField.functionId.limit
  | envObj token => (asBytes token).length ≤ SnapshotField.environmentToken.limit
  | _ => True

/-- The items of a list can be counted, and each of them fits. -/
def FitsVec (fits : α → Prop) (items : List α) : Prop := items.length < 2 ^ 32 ∧ ∀ a ∈ items, fits a

def SavedObject.Fits : SavedObject → Prop
  | table _ _ entries metatable =>
    FitsVec (fun e => e.1.Fits ∧ e.2.Fits) entries ∧ ∀ mt, metatable = some mt → mt.Fits
  | closure _ upvalues => FitsVec (fun _ => True) upvalues

/-- A Lua string fits its field. -/
def FitsString (bytes : List UInt8) : Prop := bytes.length ≤ SnapshotField.luaString.limit

structure SavedBytecode.Fits (b : SavedBytecode) : Prop where
  code : FitsVec (fun _ => True) b.code
  numberLiterals : FitsVec (fun _ => True) b.numberLiterals
  stringLiterals : FitsVec FitsString b.stringLiterals
  tableTemplates : FitsVec (FitsVec fun _ => True) b.tableTemplates
  nested : FitsVec (fun _ => True) b.nested
  upvalues : FitsVec (fun _ => True) b.upvalues
  name : ∀ name, b.name = some name → (asBytes name).length ≤ SnapshotField.chunkName.limit
  source : ∀ source, b.source = some source → source.length ≤ SnapshotField.chunkSource.limit
  lineInfo : FitsVec (fun _ => True) b.lineInfo

structure SavedEnvRecord.Fits (r : SavedEnvRecord) : Prop where
  token : (asBytes r.token).length ≤ SnapshotField.environmentToken.limit
  table : r.table.Fits
  pins : FitsVec SavedVal.Fits r.pins

/-- Every collection of a payload can be counted, and every field is within its limit. -/
structure SavePayload.Fits (p : SavePayload) : Prop where
  strings : FitsVec FitsString p.strings
  bytecode : FitsVec SavedBytecode.Fits p.bytecode
  upvalues : FitsVec SavedVal.Fits p.upvalues
  objects : FitsVec SavedObject.Fits p.objects
  globals : p.globals.Fits
  globalPins : FitsVec SavedVal.Fits p.globalPins
  envTables : FitsVec SavedEnvRecord.Fits p.envTables
  formatPointerIds : FitsVec (fun e => e.1.Fits) p.formatPointerIds

theorem limit_lt (field : SnapshotField) : field.limit < 2 ^ 32 := by cases field <;> decide

@[simp] theorem succeeds_u8 (n : UInt8) : Succeeds (writeU8 n) := succeeds_put

@[simp] theorem succeeds_bool (b : Bool) : Succeeds (writeBool b) := succeeds_put

@[simp] theorem succeeds_u16 (n : UInt16) : Succeeds (writeU16 n) := succeeds_put

@[simp] theorem succeeds_u32 (n : UInt32) : Succeeds (writeU32 n) := succeeds_put

@[simp] theorem succeeds_u64 (n : UInt64) : Succeeds (writeU64 n) := succeeds_put

@[simp] theorem succeeds_i64 (n : Int64) : Succeeds (writeI64 n) := succeeds_put

@[simp] theorem succeeds_bytes {bytes : List UInt8} {field : SnapshotField} :
    Succeeds (writeBytes bytes field) ↔ bytes.length ≤ field.limit := by
  have := limit_lt field
  rw [writeBytes]
  split
  · rename_i h
    simp [h.2]
  · rename_i h
    simp only [not_succeeds_refuse, false_iff]
    omega

@[simp] theorem succeeds_string {s : String} {field : SnapshotField} :
    Succeeds (writeString s field) ↔ (asBytes s).length ≤ field.limit := succeeds_bytes

@[simp] theorem succeeds_optionBytes {o : Option (List UInt8)} {field : SnapshotField} :
    Succeeds (writeOptionBytes o field) ↔ ∀ bytes, o = some bytes → bytes.length ≤ field.limit := by
  cases o <;> simp [writeOptionBytes]

@[simp] theorem succeeds_optionString {o : Option String} {field : SnapshotField} :
    Succeeds (writeOptionString o field) ↔
      ∀ s, o = some s → (asBytes s).length ≤ field.limit := by
  cases o <;> simp [writeOptionString]

@[simp] theorem succeeds_vec {c : SaveCollection} {w : α → EncodeM Unit} {items : List α} :
    Succeeds (writeVec c w items) ↔ FitsVec (fun a => Succeeds (w a)) items := by
  rw [writeVec, FitsVec, succeeds_bind, succeeds_putItems, writeLen]
  split
  · rename_i h
    exact ⟨fun hs => ⟨h, hs.2⟩, fun hs => ⟨succeeds_u32 _, hs.2⟩⟩
  · rename_i h
    exact ⟨fun hs => absurd hs.1 not_succeeds_refuse, fun hs => absurd hs.1 h⟩

@[simp] theorem succeeds_val {v : SavedVal} : Succeeds v.encode ↔ v.Fits := by
  rcases v with _ | (_ | _) | _ | _ | _ | _ | _ <;> simp [SavedVal.encode, SavedVal.Fits]

@[simp] theorem succeeds_metatable {o : Option SavedVal} :
    Succeeds (encodeMetatable o) ↔ ∀ mt, o = some mt → mt.Fits := by
  cases o <;> simp [encodeMetatable]

@[simp] theorem succeeds_object {o : SavedObject} : Succeeds o.encode ↔ o.Fits := by
  cases o <;> simp [SavedObject.encode, SavedObject.Fits, encodeEntry]

@[simp] theorem succeeds_upvalueDesc (d : SavedUpvalueDesc) : Succeeds d.encode := by
  cases d <;> simp [SavedUpvalueDesc.encode]

@[simp] theorem succeeds_bytecode {b : SavedBytecode} : Succeeds b.encode ↔ b.Fits := by
  simp only [SavedBytecode.encode, succeeds_bind, succeeds_vec, succeeds_u64, succeeds_u32,
    succeeds_u16, succeeds_u8, succeeds_bool, succeeds_bytes, succeeds_upvalueDesc,
    succeeds_optionString, succeeds_optionBytes, true_and]
  constructor
  · rintro ⟨h₁, h₂, h₃, h₄, h₅, h₆, h₇, h₈, h₉⟩
    exact ⟨h₁, h₂, h₃, h₄, h₅, h₆, h₇, h₈, h₉⟩
  · rintro ⟨h₁, h₂, h₃, h₄, h₅, h₆, h₇, h₈, h₉⟩
    exact ⟨h₁, h₂, h₃, h₄, h₅, h₆, h₇, h₈, h₉⟩

@[simp] theorem succeeds_envRecord {r : SavedEnvRecord} : Succeeds r.encode ↔ r.Fits := by
  simp only [SavedEnvRecord.encode, succeeds_bind, succeeds_vec, succeeds_string, succeeds_object,
    succeeds_val]
  constructor
  · rintro ⟨h₁, h₂, h₃⟩
    exact ⟨h₁, h₂, h₃⟩
  · rintro ⟨h₁, h₂, h₃⟩
    exact ⟨h₁, h₂, h₃⟩

@[simp] theorem succeeds_cost (c : SavedCost) : Succeeds (writeCost c) := by
  have hcosting : Succeeds (writeCosting c.1.costing) := by
    cases c.1.costing <;> simp [writeCosting]
  simp [writeCost, hcosting]

/-- A payload is encoded exactly if its lengths fit. -/
theorem succeeds_payload {p : SavePayload} : Succeeds p.encode ↔ p.Fits := by
  simp only [SavePayload.encode, succeeds_bind, succeeds_vec, succeeds_u64, succeeds_u8,
    succeeds_bool, succeeds_bytes, succeeds_cost, succeeds_val, succeeds_object, succeeds_bytecode,
    succeeds_envRecord, encodePointerId, true_and, and_true]
  constructor
  · rintro ⟨h₁, h₂, h₃, h₄, h₅, h₆, h₇, h₈⟩
    exact ⟨h₁, h₂, h₃, h₄, h₅, h₆, h₇, h₈⟩
  · rintro ⟨h₁, h₂, h₃, h₄, h₅, h₆, h₇, h₈⟩
    exact ⟨h₁, h₂, h₃, h₄, h₅, h₆, h₇, h₈⟩

/-! ## Whole byte strings -/

theorem reads_finish {before rest : List UInt8} {u : Unit} {stop : Nat} :
    Reads finish before rest u stop ↔ rest = [] ∧ stop = before.length := by
  have hrun : ((finish.run (before ++ rest)).run before.length) =
      ((if before.length = (before ++ rest).length then pure ()
        else rejectWith (.decodeError before.length .trailingBytes) : DecodeM Unit).run
          (before ++ rest)).run before.length := rfl
  rw [Reads, hrun, List.length_append]
  by_cases hnil : rest = []
  · subst hnil
    rw [if_pos (by simp)]
    exact reads_pure.trans (by simp)
  · rw [if_neg (by simpa using hnil)]
    exact iff_of_false not_reads_rejectWith fun h => hnil h.1

/-- A reader that must leave no byte. -/
theorem codes_finish {w : α → EncodeM Unit} {r : DecodeM α} (h : Lawful w r) {bytes : List UInt8}
    {a : α} {stop : Nat} :
    ((do let a ← r; finish; pure a : DecodeM α).run bytes).run 0 = .ok (a, stop) ↔
      ((r.run bytes).run 0 = .ok (a, bytes.length)) ∧ stop = bytes.length := by
  have hbind : Reads (do let a ← r; finish; pure a : DecodeM α) [] bytes a stop ↔ _ := reads_bind
  refine hbind.trans ⟨?_, ?_⟩
  · rintro ⟨a', middle, hr, hk⟩
    obtain ⟨-, bs, after, rfl, rfl, -⟩ := h.read hr
    have hk' : Reads (do finish; pure a' : DecodeM α) bs after a stop := by
      simpa [Reads] using hk
    obtain ⟨_, middle, hfin, hpure⟩ := reads_bind.1 hk'
    obtain ⟨rfl, rfl⟩ := reads_finish.1 hfin
    cases hpure
    simp only [List.append_nil, List.nil_append, List.length_nil, Nat.zero_add] at hr ⊢
    exact ⟨hr, trivial⟩
  · rintro ⟨hr, rfl⟩
    refine ⟨a, bytes.length, hr, ?_⟩
    have hfin : Reads (do finish; pure a : DecodeM α) bytes [] a bytes.length :=
      reads_bind.2 ⟨(), bytes.length, reads_finish.2 ⟨rfl, rfl⟩, rfl⟩
    simpa [Reads] using hfin

theorem encodedBytes_eq_ok {w : EncodeM Unit} {bytes : List UInt8} :
    encodedBytes w = .ok bytes ↔ Writes w bytes := by
  rw [encodedBytes, Writes]
  generalize w.run = x
  rcases x with e | ⟨⟨⟩, bs⟩ <;> simp [Except.map]

theorem decodedBytes_eq_ok {r : DecodeM α} {bytes : List UInt8} {a : α} :
    decodedBytes r bytes = .ok a ↔ ∃ stop, (r.run bytes).run 0 = .ok (a, stop) := by
  rw [decodedBytes]
  generalize (r.run bytes).run 0 = x
  rcases x with e | ⟨a', stop⟩ <;> simp [Except.map]

theorem decodedBytes_map {β : Type} {f : α → β} {r : DecodeM α} {bytes : List UInt8} :
    decodedBytes (f <$> r) bytes = (decodedBytes r bytes).map f := by
  have hrun : ((f <$> r).run bytes).run 0 = (fun x => (f x.1, x.2)) <$> (r.run bytes).run 0 := rfl
  rw [decodedBytes, decodedBytes, hrun]
  generalize (r.run bytes).run 0 = x
  rcases x with e | ⟨a, stop⟩ <;> rfl

/-- The payload of a raw state without costing, as far as it can be empty. -/
def emptyPayload : SavePayload where
  hasStandardEnvironment := false
  rngState := 0
  cost := ⟨.new .off, .new⟩
  strings := []
  bytecode := []
  upvalues := []
  objects := []
  globals := .table 0 0 [] none
  globalPins := []
  globalsSealed := false
  envTables := []
  nextFormatPointerId := 1
  formatPointerIds := []

/-- What the empty payload is encoded to. -/
def emptyPayloadBytes : List UInt8 :=
  [0] ++ List.replicate 8 0 ++ [1] ++ List.replicate 7 255 ++ [127] ++ List.replicate 7 255 ++ [127] ++
    [0] ++ List.replicate 8 0 ++ List.replicate 16 0 ++ List.replicate 18 0 ++ List.replicate 4 0 ++
    [0] ++ List.replicate 4 0 ++ [1] ++ List.replicate 7 0 ++ List.replicate 4 0

theorem codes_magicAndVersions :
    Codes (fun _ : Unit => True) (fun _ => writeMagicAndVersions) readMagicAndVersions := by
  refine (codes_exact 4).field (fun _ => MAGIC) (fun _ _ => rfl) fun magic _ => ?_
  by_cases h₁ : magic = MAGIC
  swap
  · rw [if_pos h₁]
    exact Codes.fail fun _ hb => h₁ hb.2.symm
  rw [if_neg (not_not.2 h₁)]
  refine lawful_u16.field (fun _ => FORMAT_VERSION) fun format => ?_
  by_cases h₂ : format = FORMAT_VERSION
  swap
  · rw [if_pos h₂]
    exact Codes.fail fun _ hb => h₂ hb.2.symm
  rw [if_neg (not_not.2 h₂)]
  refine (lawful_u16.field (fun _ => COST_MODEL_VERSION) (W := fun _ => pure ()) fun cost => ?_).congr
    (fun _ => Iff.rfl) fun _ _ bs => by simp
  by_cases h₃ : cost = COST_MODEL_VERSION
  swap
  · rw [if_pos h₃]
    exact Codes.fail fun _ hb => h₃ hb.2.symm
  rw [if_neg (not_not.2 h₃)]
  exact (Codes.pure ()).congr (fun _ => by simp [h₁, h₂, h₃]) fun _ _ _ => Iff.rfl

/-- The whole save, with the version of the engine. -/
theorem lawful_save :
    Lawful (fun q : List UInt8 × SavePayload => do
        writeMagicAndVersions
        writeBytes q.1 .engineVersion
        q.2.encode)
      (do readMagicAndVersions; let v ← readBytes .engineVersion; let p ← SavePayload.decode; pure (v, p)) := by
  refine codes_magicAndVersions.field (fun _ => ()) (fun _ _ => trivial) fun _ _ => ?_
  exact ((lawful_bytes .engineVersion).pair SavePayload.lawful).congr (fun _ => by simp)
    fun _ _ _ => Iff.rfl

/-- Every save an engine writes is read back, whatever its version: the version of the
    engine is not compared. -/
theorem decode_encodeSave {engineVersion : String} {p : SavePayload} {bytes : List UInt8}
    (h : encodedBytes (encodeSave engineVersion p) = .ok bytes) (hlen : bytes.length < 2 ^ 64) :
    decodedBytes decodeSave bytes = .ok p := by
  have hw : Writes (do
      writeMagicAndVersions
      writeBytes (asBytes engineVersion) .engineVersion
      p.encode : EncodeM Unit) bytes := encodedBytes_eq_ok.1 h
  have hr : Reads _ [] (bytes ++ []) (asBytes engineVersion, p) ([].length + bytes.length) :=
    lawful_save.write trivial hw (by simpa using hlen)
  rw [Reads, List.append_nil, List.nil_append, List.length_nil, Nat.zero_add] at hr
  have hfin := decodedBytes_eq_ok.2 ⟨_, (codes_finish lawful_save).2 ⟨hr, rfl⟩⟩
  have hsave : decodeSave = Prod.snd <$> (do
      let q ← (do
        readMagicAndVersions
        let v ← readBytes .engineVersion
        let p ← SavePayload.decode
        pure (v, p))
      finish
      pure q) := by
    simp only [decodeSave, bind_assoc, pure_bind, map_bind, map_pure]
  rw [hsave, decodedBytes_map, hfin]
  rfl

end Dellingr
