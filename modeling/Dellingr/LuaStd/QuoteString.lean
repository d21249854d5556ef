import Dellingr.LuaStd.StringFormat
import Dellingr.Compiler.Lexer

/-!
# Quoted strings read back

What `%q` writes for a string is read back by the lexer, as one token with the bytes of the
string (`nextToken_quoted`).

The text of a string is the concatenation of the texts of its bytes (`quoteText`), and the
lexer reads one text after the other (`reads_quoteByte`). How it reads one depends on what
follows only where an escape has fewer than three digits, or where it is a line feed; the text
that follows starts with a digit only if the next byte is one, and never with a carriage return
(`head_quoteText`).
-/

namespace Dellingr

open Patterns (ascii isAsciiDigit)
open Numeral (FloatOps)

/-! ## Digits -/

theorem isAsciiDigit_byte {d : Nat} (h : d < 10) : isAsciiDigit (Digits.byte d) = true := by
  interval_cases d <;> rfl

theorem isAsciiDigit_of_mem_bytes {n : Nat} {c : UInt8} (h : c ∈ Digits.bytes 10 n) :
    isAsciiDigit c = true := by
  obtain ⟨d, hd, rfl⟩ := Digits.exists_of_mem_bytes (by norm_num) h
  exact isAsciiDigit_byte hd

namespace StringFormat

/-! ## The text of a string -/

/-- The text of a string between its quotes. -/
def quoteText : List UInt8 → List UInt8
  | [] => []
  | byte :: rest => quoteByte byte rest ++ quoteText rest

/-- The digits of an escape: three, or as few as needed before a byte that is no digit. -/
structure IsEscape (byte : UInt8) (rest ds : List UInt8) : Prop where
  digits : ∀ c ∈ ds, isAsciiDigit c = true
  ne_nil : ds ≠ []
  length_le : ds.length ≤ 3
  value : Digits.value 10 ds = byte.toNat
  stop : ds.length = 3 ∨ rest.head?.any isAsciiDigit = false

/-- The text of a byte is an escaped byte, a decimal escape, or the byte itself. -/
theorem quoteByte_cases (byte : UInt8) (rest : List UInt8) :
    (quoteByte byte rest = [ascii '\\', byte] ∧ (byte = ascii '"' ∨ byte = ascii '\\' ∨ byte = 10)) ∨
    (∃ ds, quoteByte byte rest = ascii '\\' :: ds ∧ IsEscape byte rest ds) ∨
    (quoteByte byte rest = [byte] ∧ byte ≠ ascii '"' ∧ byte ≠ ascii '\\' ∧ 31 < byte) := by
  rw [quoteByte]
  split
  · rename_i h
    simp only [Bool.or_eq_true, beq_iff_eq] at h
    exact .inl ⟨rfl, by tauto⟩
  rename_i h
  simp only [Bool.or_eq_true, beq_iff_eq, not_or] at h
  split
  · rename_i h'
    obtain rfl : byte = 10 := by simpa using h'
    exact .inl ⟨rfl, .inr (.inr rfl)⟩
  split
  · rename_i hc
    have hlt : byte.toNat < 1000 := byte.toNat_lt.trans (by norm_num)
    refine .inr (.inl ⟨_, rfl, ?_⟩)
    split
    · refine ⟨fun c hm => ?_, ?_, ?_, Digits.value_padded (by norm_num) (by norm_num), .inl ?_⟩
      · obtain ⟨d, hd, rfl⟩ := Digits.exists_of_mem_padded (by norm_num) hm
        exact isAsciiDigit_byte hd
      · simp [Digits.padded, Digits.bytes_ne_nil]
      · exact (Digits.length_padded (by norm_num) (by norm_num) hlt).le
      · exact Digits.length_padded (by norm_num) (by norm_num) hlt
    · rename_i hnext
      exact ⟨fun c hm => isAsciiDigit_of_mem_bytes hm, Digits.bytes_ne_nil,
        Digits.length_bytes_le (by norm_num) (by norm_num) hlt,
        Digits.value_bytes (by norm_num) (by norm_num), .inr (by simpa using hnext)⟩
  · rename_i hc
    simp only [Bool.or_eq_true, decide_eq_true_eq, beq_iff_eq, not_or, UInt8.not_le] at hc
    exact .inr (.inr ⟨rfl, h.1, h.2, hc.1⟩)

/-- What follows a byte starts with a digit only if the next byte is one, and never with a control
    byte. -/
theorem head_quoteText {bytes t : List UInt8} {c : UInt8}
    (h : (quoteText bytes ++ ascii '"' :: t).head? = some c) :
    31 < c ∧ (isAsciiDigit c = true → bytes.head?.any isAsciiDigit = true) := by
  cases bytes with
  | nil =>
    obtain rfl : ascii '"' = c := by simpa [quoteText] using h
    decide
  | cons byte rest =>
    rw [quoteText] at h
    obtain ⟨he, -⟩ | ⟨ds, he, -⟩ | ⟨he, -, -, hlt⟩ := quoteByte_cases byte rest
    · obtain rfl : ascii '\\' = c := by simpa [he] using h
      exact ⟨by decide, fun hd => absurd hd (by decide)⟩
    · obtain rfl : ascii '\\' = c := by simpa [he] using h
      exact ⟨by decide, fun hd => absurd hd (by decide)⟩
    · obtain rfl : byte = c := by simpa [he] using h
      exact ⟨hlt, fun hd => by simpa using hd⟩

/-! ## Writing a string -/

/-- The loop appends the text if it fits, and fails otherwise. -/
theorem quoteLoop_spec {bytes output : List UInt8} (ho : output.length ≤ MAX_STRING_BYTES) :
    ((output ++ quoteText bytes).length ≤ MAX_STRING_BYTES →
      quoteLoop bytes output = .ok (output ++ quoteText bytes)) ∧
    (MAX_STRING_BYTES < (output ++ quoteText bytes).length → ∃ e, quoteLoop bytes output = .error e) := by
  induction bytes generalizing output with
  | nil =>
    rw [quoteText, List.append_nil]
    exact ⟨fun _ => rfl, fun h => absurd h (Nat.not_lt.2 ho)⟩
  | cons byte rest ih =>
    rw [quoteLoop, quoteText, ← List.append_assoc]
    by_cases hle : output.length + (quoteByte byte rest).length ≤ MAX_STRING_BYTES
    · rw [checkedStringGrowth_of_le hle]
      exact ih (by rwa [List.length_append])
    · obtain ⟨e, he⟩ := checkedStringGrowth_of_lt (Nat.lt_of_not_le hle)
      rw [he]
      refine ⟨fun h => ?_, fun _ => ⟨e, rfl⟩⟩
      rw [List.length_append, List.length_append] at h
      omega

theorem length_le_quoteText (bytes : List UInt8) : bytes.length ≤ (quoteText bytes).length := by
  induction bytes with
  | nil => exact Nat.le_refl _
  | cons byte rest ih =>
    have hpos : 1 ≤ (quoteByte byte rest).length := by
      obtain ⟨he, -⟩ | ⟨ds, he, -⟩ | ⟨he, -⟩ := quoteByte_cases byte rest <;> simp [he]
    rw [quoteText, List.length_append, List.length_cons]
    omega

/-- The literal of a string. -/
def quoted (bytes : List UInt8) : List UInt8 := ascii '"' :: quoteText bytes ++ [ascii '"']

theorem length_quoted (bytes : List UInt8) : (quoted bytes).length = (quoteText bytes).length + 2 := by
  simp [quoted]

/-- A string is written if its literal fits, and not otherwise. -/
theorem quoteString_spec (bytes : List UInt8) :
    ((quoted bytes).length ≤ MAX_STRING_BYTES → quoteString bytes = .ok (quoted bytes)) ∧
    (MAX_STRING_BYTES < (quoted bytes).length → ∃ e, quoteString bytes = .error e) := by
  have hbytes := length_le_quoteText bytes
  have hopen : ([ascii '"'] ++ quoteText bytes).length = (quoteText bytes).length + 1 := by simp
  have hstart : [ascii '"'].length ≤ MAX_STRING_BYTES := by decide
  obtain ⟨hfits, hfails⟩ := @quoteLoop_spec bytes [ascii '"'] hstart
  rw [length_quoted, quoteString]
  constructor
  · intro hle
    rw [checkedStringGrowth_of_le (by omega), hfits (by omega)]
    show (checkedStringGrowth ([ascii '"'] ++ quoteText bytes).length 1 >>= _) = _
    rw [checkedStringGrowth_of_le (by omega)]
    rfl
  · intro hlt
    by_cases hfirst : bytes.length + 2 ≤ MAX_STRING_BYTES
    · rw [checkedStringGrowth_of_le hfirst]
      by_cases hloop : ([ascii '"'] ++ quoteText bytes).length ≤ MAX_STRING_BYTES
      · -- The last quote is one byte too many.
        obtain ⟨e, he⟩ : ∃ e, checkedStringGrowth ([ascii '"'] ++ quoteText bytes).length 1 = .error e :=
          checkedStringGrowth_of_lt (by omega)
        refine ⟨e, ?_⟩
        rw [hfits hloop]
        show (checkedStringGrowth ([ascii '"'] ++ quoteText bytes).length 1 >>= _) = _
        rw [he]
        rfl
      · obtain ⟨e, he⟩ := hfails (Nat.lt_of_not_le hloop)
        exact ⟨e, by rw [he]; rfl⟩
    · obtain ⟨e, he⟩ := checkedStringGrowth_of_lt (Nat.lt_of_not_le hfirst)
      exact ⟨e, by rw [he]; rfl⟩

theorem eq_quoted {bytes text : List UInt8} (h : quoteString bytes = .ok text) : text = quoted bytes := by
  by_cases hle : (quoted bytes).length ≤ MAX_STRING_BYTES
  · exact Except.ok.inj (h.symm.trans ((quoteString_spec bytes).1 hle))
  · obtain ⟨e, he⟩ := (quoteString_spec bytes).2 (Nat.lt_of_not_le hle)
    exact nomatch h.symm.trans he

end StringFormat

/-! ## Reading a string -/

namespace Lexer

open StringFormat

variable {l : Lexer} {fuel decodedUntil : Nat} {decoded : List UInt8} {t : List UInt8}

/-- The digits of a decimal escape, up to as many as are read. -/
theorem decimalEscape_eq {source ds t : List UInt8} {more value stop : Nat} (h : source.drop stop = ds ++ t)
    (hds : ∀ c ∈ ds, isAsciiDigit c = true) (hle : ds.length ≤ more)
    (hend : ds.length = more ∨ ∀ c, t.head? = some c → isAsciiDigit c = false) :
    decimalEscape source more value stop =
      (ds.foldl (fun n c => n * 10 + Digits.digit c) value, stop + ds.length) := by
  induction ds generalizing more value stop with
  | nil =>
    cases more with
    | zero => rfl
    | succ more =>
      rcases hend with hend | hend
      · cases hend
      · rw [decimalEscape, ← List.head?_drop, h, List.nil_append]
        cases hc : t.head? with
        | none => rfl
        | some c =>
          simp only [hend c hc, Bool.false_eq_true, if_false]
          rfl
  | cons c ds ih =>
    cases more with
    | zero => cases hle
    | succ more =>
      have hc : isAsciiDigit c = true := hds c List.mem_cons_self
      have htail : source.drop (stop + 1) = ds ++ t := by
        rw [← List.drop_drop, h]
        rfl
      rw [decimalEscape, ← List.head?_drop, h]
      simp only [List.cons_append, List.head?_cons, hc, if_true, Numeral.toNat_sub_of_isAsciiDigit hc]
      rw [ih htail (fun c hm => hds c (List.mem_cons_of_mem _ hm)) (Nat.le_of_succ_le_succ hle)
        (hend.imp (fun h => Nat.succ.inj h) id), List.foldl_cons, List.length_cons, Nat.add_right_comm,
        Nat.add_assoc]

/-- A digit is no byte that the loop treats differently. -/
theorem ne_of_isAsciiDigit {c : UInt8} (h : isAsciiDigit c = true) :
    c ≠ ascii '"' ∧ c ≠ ascii '\\' ∧ c ≠ 13 ∧ c ≠ 10 ∧ c ≠ ascii 'z' := by
  refine ⟨?_, ?_, ?_, ?_, ?_⟩ <;> rintro rfl <;> revert h <;> decide

/-- The digits of an escape that has been decoded are read over. -/
theorem lexStringLoop_digits {ds : List UInt8} (h : l.rest = ds ++ t)
    (hds : ∀ c ∈ ds, isAsciiDigit c = true) (hu : l.pos + ds.length ≤ decodedUntil) :
    ∃ l' : Lexer, l'.rest = t ∧ l'.source = l.source ∧ l'.pos = l.pos + ds.length ∧
      lexStringLoop (ascii '"') (fuel + ds.length) l decoded none decodedUntil =
        lexStringLoop (ascii '"') fuel l' decoded none decodedUntil := by
  induction ds generalizing l with
  | nil => exact ⟨l, h, rfl, rfl, rfl⟩
  | cons c ds ih =>
    obtain ⟨hq, hs, hcr, hlf, -⟩ := ne_of_isAsciiDigit (hds c List.mem_cons_self)
    rw [List.length_cons] at hu
    have hstep : lexStringLoop (ascii '"') (fuel + ds.length + 1) l decoded none decodedUntil =
        lexStringLoop (ascii '"') (fuel + ds.length) (l.advance c) decoded none decodedUntil := by
      rw [lexStringLoop_byte h hq hs hcr hlf, if_neg (by omega)]
    obtain ⟨l', hrest, hsource, hpos, hloop⟩ := ih (rest_advance h)
      (fun c hm => hds c (List.mem_cons_of_mem _ hm)) (by rw [pos_advance]; omega)
    refine ⟨l', hrest, hsource.trans source_advance, ?_, hstep.trans hloop⟩
    rw [hpos, pos_advance, List.length_cons]
    omega

/-- The loop after the bytes of a text: it has decoded a byte, and goes on at the next. -/
structure Reads (l : Lexer) (fuel : Nat) (decoded : List UInt8) (decodedUntil : Nat) (byte : UInt8)
    (read : Nat) (l' : Lexer) (fuel' decodedUntil' : Nat) : Prop where
  rest_eq : l'.rest = l.rest.drop read
  source_eq : l'.source = l.source
  pos_eq : l'.pos = l.pos + read
  enough : l'.rest.length ≤ fuel'
  until_le : decodedUntil' ≤ l'.pos
  loop_eq : lexStringLoop (ascii '"') fuel l decoded none decodedUntil =
    lexStringLoop (ascii '"') fuel' l' (decoded ++ [byte]) none decodedUntil'

/-- A byte that is escaped by itself. -/
theorem reads_escape {byte : UInt8} (h : l.rest = ascii '\\' :: byte :: t) (hf : l.rest.length ≤ fuel)
    (hb : byte = ascii '"' ∨ byte = ascii '\\' ∨ byte = 10)
    (ht : ∀ c, t.head? = some c → 31 < c) :
    ∃ l' fuel' u, Reads l fuel decoded decodedUntil byte 2 l' fuel' u := by
  obtain ⟨fuel, rfl⟩ : ∃ n, fuel = n + 1 := ⟨fuel - 1, by rw [h, List.length_cons] at hf; omega⟩
  have h₂ := rest_advance (rest_advance h)
  have hsimple : simpleEscape byte = some byte := by rcases hb with rfl | rfl | rfl <;> rfl
  have hz : byte ≠ ascii 'z' := by rcases hb with rfl | rfl | rfl <;> decide
  have hx : byte ≠ ascii 'x' := by rcases hb with rfl | rfl | rfl <;> decide
  have hdigit : isAsciiDigit byte = false := by rcases hb with rfl | rfl | rfl <;> rfl
  have hpair : ∀ c, t.head? = some c → Numeral.isNewlinePair byte c = false := by
    intro c hc
    have hlt := ht c hc
    have hcr : c ≠ 13 := by rintro rfl; exact absurd hlt (by decide)
    have hlf : c ≠ 10 := by rintro rfl; exact absurd hlt (by decide)
    simp [Numeral.isNewlinePair, hcr, hlf]
  refine ⟨(l.advance (ascii '\\')).advance byte, fuel, l.pos + 2, ?_, by simp, by simp, ?_, by simp, ?_⟩
  · rw [h₂, h]
    rfl
  · rw [h₂]
    rw [h, List.length_cons, List.length_cons] at hf
    omega
  · refine lexStringLoop_escape h (by decide) hz hpair ?_
    simp [decodeStringEscape, hdigit, hx, hz, hsimple]

/-- A byte that is written as a decimal escape. -/
theorem reads_digits {byte : UInt8} {bytes ds : List UInt8} (h : l.rest = ascii '\\' :: ds ++ t)
    (hf : l.rest.length ≤ fuel) (hds : IsEscape byte bytes ds)
    (ht : ∀ c, t.head? = some c → isAsciiDigit c = true → bytes.head?.any isAsciiDigit = true) :
    ∃ l' fuel' u, Reads l fuel decoded decodedUntil byte (ds.length + 1) l' fuel' u := by
  obtain ⟨d, ds, rfl⟩ := List.exists_cons_of_ne_nil hds.ne_nil
  have hrest : l.rest.length = 2 + ds.length + t.length := by
    rw [h]
    simp only [List.cons_append, List.length_cons, List.length_append]
    omega
  obtain ⟨n, rfl⟩ : ∃ n, fuel = n + ds.length + 1 := ⟨fuel - ds.length - 1, by omega⟩
  have hd : isAsciiDigit d = true := hds.digits d List.mem_cons_self
  have hdigits : ∀ c ∈ ds, isAsciiDigit c = true := fun c hm => hds.digits c (List.mem_cons_of_mem _ hm)
  have hlen := hds.length_le
  rw [List.length_cons] at hlen
  have h₂ := rest_advance (rest_advance h)
  have hend : ds.length = 2 ∨ ∀ c, t.head? = some c → isAsciiDigit c = false := by
    refine hds.stop.imp (fun h => by rw [List.length_cons] at h; omega) fun hstop c hc => ?_
    cases hdc : isAsciiDigit c with
    | false => rfl
    | true => rw [ht c hc hdc] at hstop; cases hstop
  have hsource : ((l.advance (ascii '\\')).advance d).source.drop (l.pos + 2) = ds ++ t := by
    have hpos : ((l.advance (ascii '\\')).advance d).pos = l.pos + 2 := by simp
    rw [← hpos]
    exact h₂
  -- All digits are decoded at the first one.
  have hdecode : ((l.advance (ascii '\\')).advance d).decodeStringEscape l.pos d (ascii '"') (l.pos + 2)
      decoded = .ok (decoded ++ [byte], l.pos + 2 + ds.length) := by
    have hvalue : ds.foldl (fun n c => n * 10 + Digits.digit c) (Digits.digit d) = byte.toNat := by
      rw [← hds.value, Digits.value, List.foldl_cons, Nat.zero_mul, Nat.zero_add]
    rw [decodeStringEscape, if_pos hd, Numeral.toNat_sub_of_isAsciiDigit hd,
      decimalEscape_eq hsource hdigits (by omega) hend, hvalue]
    have hle : ¬ 255 < byte.toNat := Nat.not_lt.2 (Nat.le_of_lt_succ byte.toNat_lt)
    simp only [if_neg hle, UInt8.ofNat_toNat]
  obtain ⟨-, -, hcr, hlf, hz⟩ := ne_of_isAsciiDigit hd
  have hpair : ∀ c, (ds ++ t).head? = some c → Numeral.isNewlinePair d c = false := by
    intro c _
    simp [Numeral.isNewlinePair, hcr, hlf]
  have hescape : lexStringLoop (ascii '"') (n + ds.length + 1) l decoded none decodedUntil =
      lexStringLoop (ascii '"') (n + ds.length) ((l.advance (ascii '\\')).advance d) (decoded ++ [byte])
        none (l.pos + 2 + ds.length) := lexStringLoop_escape h (by decide) hz hpair hdecode
  obtain ⟨l', hrest', hsource', hpos', hloop⟩ := @lexStringLoop_digits _ n (l.pos + 2 + ds.length)
    (decoded ++ [byte]) _ _ h₂ hdigits (by simp)
  refine ⟨l', n, l.pos + 2 + ds.length, ?_, ?_, ?_, ?_, ?_, hescape.trans hloop⟩
  · rw [hrest', h]
    simp
  · rw [hsource']
    simp
  · rw [hpos']
    simp only [pos_advance, List.length_cons]
    omega
  · rw [hrest']
    omega
  · rw [hpos']
    simp

/-- The text of a byte is read as the byte. -/
theorem reads_quoteByte {byte : UInt8} {bytes : List UInt8}
    (h : l.rest = quoteByte byte bytes ++ (quoteText bytes ++ ascii '"' :: t))
    (hf : l.rest.length ≤ fuel) (hu : decodedUntil ≤ l.pos) :
    ∃ l' fuel' u, Reads l fuel decoded decodedUntil byte (quoteByte byte bytes).length l' fuel' u := by
  obtain ⟨he, hb⟩ | ⟨ds, he, hds⟩ | ⟨he, hq, hs, hlt⟩ := quoteByte_cases byte bytes
  · rw [he] at h ⊢
    exact reads_escape h hf hb fun c hc => (head_quoteText hc).1
  · rw [he] at h ⊢
    exact reads_digits h hf hds fun c hc => (head_quoteText hc).2
  · rw [he] at h ⊢
    have hlen : l.rest.length = (quoteText bytes ++ ascii '"' :: t).length + 1 := by
      rw [h]
      rfl
    obtain ⟨fuel, rfl⟩ : ∃ n, fuel = n + 1 := ⟨fuel - 1, by omega⟩
    have hcr : byte ≠ 13 := by rintro rfl; exact absurd hlt (by decide)
    have hlf : byte ≠ 10 := by rintro rfl; exact absurd hlt (by decide)
    have hrest : (l.advance byte).rest = quoteText bytes ++ ascii '"' :: t := rest_advance h
    refine ⟨l.advance byte, fuel, decodedUntil, ?_, by simp, by simp, ?_, ?_, ?_⟩
    · rw [hrest, h]
      rfl
    · rw [hrest]
      omega
    · rw [pos_advance]
      omega
    · rw [lexStringLoop_byte h hq hs hcr hlf, if_pos hu]

/-- The text of a string is read as the string. -/
theorem lexStringLoop_quoteText {bytes : List UInt8} (h : l.rest = quoteText bytes ++ ascii '"' :: t)
    (hf : l.rest.length ≤ fuel) (hu : decodedUntil ≤ l.pos) :
    ∃ l' : Lexer, l'.rest = t ∧ l'.source = l.source ∧ l'.pos = l.pos + (quoteText bytes).length + 1 ∧
      lexStringLoop (ascii '"') fuel l decoded none decodedUntil = .ok (.ok (decoded ++ bytes), l') := by
  induction bytes generalizing l fuel decoded decodedUntil with
  | nil =>
    obtain ⟨fuel, rfl⟩ : ∃ n, fuel = n + 1 := ⟨fuel - 1, by rw [h] at hf; simp at hf; omega⟩
    refine ⟨l.advance (ascii '"'), rest_advance h, source_advance, pos_advance, ?_⟩
    rw [lexStringLoop_quote h, List.append_nil]
  | cons byte bytes ih =>
    rw [quoteText, List.append_assoc] at h
    obtain ⟨l₁, fuel₁, u₁, hr⟩ := @reads_quoteByte l fuel decodedUntil decoded t byte bytes h hf hu
    have hrest : l₁.rest = quoteText bytes ++ ascii '"' :: t := by
      rw [hr.rest_eq, h, List.drop_left]
    obtain ⟨l', hrest', hsource, hpos, hloop⟩ := @ih l₁ fuel₁ u₁ (decoded ++ [byte]) hrest hr.enough hr.until_le
    refine ⟨l', hrest', hsource.trans hr.source_eq, ?_, ?_⟩
    · rw [hpos, hr.pos_eq, quoteText, List.length_append]
      omega
    · rw [hr.loop_eq, hloop, List.append_assoc]
      rfl

/-- A quote starts a string. -/
theorem lexToken_quote (ops : FloatOps) {contents : Except EscapeError (List UInt8)} {l' : Lexer}
    {start line : Nat} (h : l.lexString (ascii '"') = .ok (contents, l')) :
    l.lexToken ops (ascii '"') start line =
      .ok (some (l'.literalToken (.string contents) start line), l') := by
  have hdispatch : l.lexToken ops (ascii '"') start line =
      (l.lexString (ascii '"') >>= fun r =>
        .ok (some (r.2.literalToken (.string r.1) start line), r.2)) := rfl
  rw [hdispatch, h]
  rfl

/-- The literal of a string is read as one token with the string, whatever follows. -/
theorem nextToken_quoted (ops : FloatOps) (bytes t : List UInt8) : ∃ l' : Lexer,
    (Lexer.new (quoted bytes ++ t)).nextToken ops =
      .ok ((⟨.literalString, 0, (quoted bytes).length, 1⟩, some (.string (.ok bytes))), l') ∧
    l'.pos = (quoted bytes).length ∧ l'.rest = t := by
  have hnew : (Lexer.new (quoted bytes ++ t)).rest = ascii '"' :: (quoteText bytes ++ ascii '"' :: t) := by
    simp [Lexer.rest, Lexer.new, quoted]
  obtain ⟨l', hrest, -, hpos, hloop⟩ := @lexStringLoop_quoteText
    ((Lexer.new (quoted bytes ++ t)).advance (ascii '"'))
    (((Lexer.new (quoted bytes ++ t)).advance (ascii '"')).remaining + 1) 1 [] t bytes (rest_advance hnew)
    (by rw [remaining_eq]; omega) (by simp [Lexer.new])
  have hlen : l'.pos = (quoted bytes).length := by
    rw [hpos, length_quoted, pos_advance]
    simp only [Lexer.new]
    omega
  have hstring : ((Lexer.new (quoted bytes ++ t)).advance (ascii '"')).lexString (ascii '"') =
      .ok (.ok bytes, l') := by
    rw [lexString, pos_advance]
    exact hloop
  have hspace : (Lexer.new (quoted bytes ++ t)).consumeWhitespace = Lexer.new (quoted bytes ++ t) := by
    refine consumeWhitespace_of_rest fun c hc => ?_
    rw [hnew, List.head?_cons, Option.some.injEq] at hc
    subst hc
    decide
  refine ⟨l', ?_, hlen, hrest⟩
  rw [nextToken, nextTokenLoop, hspace]
  simp only [nextChar_of_rest hnew, lexToken_quote ops hstring, literalToken, token, Literal.kind, hlen]
  rfl

/-- There is no token after the last byte. -/
theorem nextToken_of_rest_nil (ops : FloatOps) (h : l.rest = []) :
    l.nextToken ops = .ok ((l.endOfFile l.linebreaks.length, none), l) := by
  have hspace : l.consumeWhitespace = l := consumeWhitespace_of_rest fun c hc => by rw [h] at hc; cases hc
  rw [nextToken, nextTokenLoop, hspace]
  simp only [nextChar_of_rest_nil h]

end Lexer

end Dellingr
