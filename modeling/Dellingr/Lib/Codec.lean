import Mathlib.Algebra.Order.Ring.Nat
import Mathlib.Control.Monad.Writer
import Mathlib.Data.List.Basic
import Mathlib.Tactic.Common

/-!
# Codecs

Writers that append bytes to an output and readers that move through a byte
string. A writer and a reader that belong together satisfy one law (`Codes`): the
reader accepts, at any place of a byte string, exactly the bytes the writer appends
for a value, and gives that value back. Both halves of the law matter:

* what is written is read back (`Codes.write`), so nothing is lost;
* what is read was written (`Codes.read`), so that every value has one spelling.

The law is closed under the ways a format is built: one field after the other
(`Codes.field`), tags, counted sequences (`Codes.items`), and conversions
(`Codes.map`). It is relative to a predicate on values, which says which of them a
reader gives in a context that already fixed some of their fields.
-/

namespace Codec

variable {ε ε' α β : Type}

/-- An action that appends bytes to an output, or fails. -/
abbrev Writer (ε : Type) := WriterT (List UInt8) (Except ε)

/-- An action that reads a byte string from a position on, and moves it. -/
abbrev Reader (ε : Type) := ReaderT (List UInt8) (StateT Nat (Except ε))

/-- Append bytes. -/
def put (bs : List UInt8) : Writer ε Unit := WriterT.mk (.ok ((), bs))

/-- Fail. -/
def refuse (e : ε) : Writer ε Unit := WriterT.mk (.error e)

/-- What a writer appends. -/
def Writes (w : Writer ε Unit) (bs : List UInt8) : Prop := w.run = .ok ((), bs)

/-- What a reader gives between the bytes before its position and the bytes from
    it on, and where it stops. -/
def Reads (r : Reader ε α) (before rest : List UInt8) (a : α) (position : Nat) : Prop :=
  (r.run (before ++ rest)).run before.length = .ok (a, position)

/-- A writer and a reader of the values that satisfy `P`. A byte string fits the
    address space. -/
structure Codes (P : α → Prop) (w : α → Writer ε Unit) (r : Reader ε' α) : Prop where
  read : ∀ {before rest a position}, Reads r before rest a position →
    P a ∧ ∃ bs after, rest = bs ++ after ∧ position = before.length + bs.length ∧ Writes (w a) bs
  write : ∀ {before bs after a}, P a → Writes (w a) bs → (before ++ (bs ++ after)).length < 2 ^ 64 →
    Reads r before (bs ++ after) a (before.length + bs.length)

/-! ## Writers -/

section Writers

variable {w w' : Writer ε Unit} {bs : List UInt8}

@[simp] theorem writes_put {bs' : List UInt8} : Writes (put bs' : Writer ε Unit) bs ↔ bs = bs' := by
  simp [Writes, put, eq_comm]

@[simp] theorem not_writes_refuse {e : ε} : ¬Writes (refuse e) bs := by
  simp [Writes, refuse]

@[simp] theorem writes_pure : Writes (pure () : Writer ε Unit) bs ↔ bs = [] := by
  change (Except.ok ((), []) : Except ε _) = .ok ((), bs) ↔ _
  simp [eq_comm]

@[simp] theorem writes_bind :
    Writes (w >>= fun _ => w') bs ↔ ∃ bs₁ bs₂, Writes w bs₁ ∧ Writes w' bs₂ ∧ bs = bs₁ ++ bs₂ := by
  have hrun : (w >>= fun _ => w').run = w.run >>= fun a => (fun b => (b.1, a.2 ++ b.2)) <$> w'.run := rfl
  rw [Writes, hrun]
  simp only [Writes]
  generalize w.run = x
  generalize w'.run = y
  rcases x with e | ⟨⟨⟩, bs₁⟩
  · simp [bind, Except.bind]
  · rcases y with e | ⟨⟨⟩, bs₂⟩ <;> simp [bind, Except.bind, Functor.map, Except.map, eq_comm]

theorem Writes.unique {bs' : List UInt8} (h : Writes w bs) (h' : Writes w bs') : bs = bs' := by
  have := h.symm.trans h'
  simpa using this

/-- Append the items of a list one after the other. -/
def putItems (w : α → Writer ε Unit) : List α → Writer ε Unit
  | [] => pure ()
  | a :: as => do
    w a
    putItems w as

theorem writes_putItems_append {w : α → Writer ε Unit} {as as' : List α} :
    Writes (putItems w (as ++ as')) bs ↔
      ∃ bs₁ bs₂, Writes (putItems w as) bs₁ ∧ Writes (putItems w as') bs₂ ∧ bs = bs₁ ++ bs₂ := by
  induction as generalizing bs with
  | nil => simp [putItems]
  | cons a as ih =>
    simp only [List.cons_append, putItems, writes_bind, ih]
    constructor
    · rintro ⟨bs₁, _, h₁, ⟨bs₂, bs₃, h₂, h₃, rfl⟩, rfl⟩
      exact ⟨bs₁ ++ bs₂, bs₃, ⟨bs₁, bs₂, h₁, h₂, rfl⟩, h₃, (List.append_assoc ..).symm⟩
    · rintro ⟨_, bs₃, ⟨bs₁, bs₂, h₁, h₂, rfl⟩, h₃, rfl⟩
      exact ⟨bs₁, bs₂ ++ bs₃, h₁, ⟨bs₂, bs₃, h₂, h₃, rfl⟩, List.append_assoc ..⟩

/-- A writer that does not fail. -/
def Succeeds (w : Writer ε Unit) : Prop := ∃ bs, Writes w bs

@[simp] theorem succeeds_put {bs : List UInt8} : Succeeds (put bs : Writer ε Unit) :=
  ⟨bs, writes_put.2 rfl⟩

@[simp] theorem not_succeeds_refuse {e : ε} : ¬Succeeds (refuse e) := fun ⟨_, h⟩ => not_writes_refuse h

@[simp] theorem succeeds_bind : Succeeds (w >>= fun _ => w') ↔ Succeeds w ∧ Succeeds w' := by
  simp [Succeeds]

/-- The items of a list are all written if each of them is. -/
@[simp] theorem succeeds_putItems {w : α → Writer ε Unit} {as : List α} :
    Succeeds (putItems w as) ↔ ∀ a ∈ as, Succeeds (w a) := by
  induction as with
  | nil => simp [putItems, Succeeds]
  | cons a as ih => simp [putItems, ih]

end Writers

/-! ## Readers -/

section Readers

variable {r : Reader ε α} {k : α → Reader ε β} {before rest : List UInt8} {a : α} {b : β}
  {stop : Nat}

/-- The current position. -/
def position : Reader ε Nat := get

/-- Fail. -/
def rejectWith (e : ε) : Reader ε α := throw e

/-- A value, or fail without one. -/
def orReject (o : Option α) (e : ε) : Reader ε α :=
  match o with
  | some a => pure a
  | none => rejectWith e

/-- Read the items of a list, so many of them. -/
def getItems (r : Reader ε α) : Nat → Reader ε (List α)
  | 0 => pure []
  | n + 1 => do
    let a ← r
    let as ← getItems r n
    pure (a :: as)

@[simp] theorem reads_pure {a' : α} :
    Reads (pure a' : Reader ε α) before rest a stop ↔ a = a' ∧ stop = before.length := by
  change (Except.ok (a', before.length) : Except ε _) = .ok (a, stop) ↔ _
  simp [eq_comm]

@[simp] theorem not_reads_rejectWith {e : ε} : ¬Reads (rejectWith e) before rest a stop := by
  change ¬(Except.error e : Except ε _) = .ok (a, stop)
  simp

theorem reads_bind : Reads (r >>= k) before rest b stop ↔
    ∃ a middle, (r.run (before ++ rest)).run before.length = .ok (a, middle) ∧
      ((k a).run (before ++ rest)).run middle = .ok (b, stop) := by
  have hrun : ((r >>= k).run (before ++ rest)).run before.length =
      (r.run (before ++ rest)).run before.length >>= fun x => ((k x.1).run (before ++ rest)).run x.2 := rfl
  rw [Reads, hrun]
  generalize (r.run (before ++ rest)).run before.length = x
  rcases x with e | ⟨a, middle⟩ <;> simp [bind, Except.bind]

@[simp] theorem reads_position_bind {k : Nat → Reader ε β} :
    Reads (position >>= k) before rest b stop ↔
      Reads (k before.length) before rest b stop := Iff.rfl

end Readers

/-! ## The law -/

namespace Codes

variable {P Q : α → Prop} {w w' : α → Writer ε Unit} {r : Reader ε' α}

/-- The same values, written in the same way. -/
theorem congr (h : Codes P w r) (hP : ∀ a, P a ↔ Q a)
    (hw : ∀ a, Q a → ∀ bs, Writes (w a) bs ↔ Writes (w' a) bs) : Codes Q w' r where
  read hr := by
    obtain ⟨ha, bs, after, h₁, h₂, h₃⟩ := h.read hr
    have hq := (hP _).1 ha
    exact ⟨hq, bs, after, h₁, h₂, (hw _ hq bs).1 h₃⟩
  write ha hb := h.write ((hP _).2 ha) ((hw _ ha _).2 hb)

/-- A value that is known takes no bytes. -/
theorem pure (a : α) : Codes (· = a) (fun _ => pure () : α → Writer ε Unit)
    (pure a : Reader ε' α) where
  read hr := by
    obtain ⟨rfl, rfl⟩ := reads_pure.1 hr
    exact ⟨rfl, [], _, rfl, rfl, writes_pure.2 rfl⟩
  write ha hb _ := by
    obtain rfl := ha
    obtain rfl := writes_pure.1 hb
    exact reads_pure.2 ⟨rfl, rfl⟩

/-- No value at all. -/
theorem fail {e : ε'} (h : ∀ a, ¬P a) : Codes P w (rejectWith e) where
  read hr := absurd hr not_reads_rejectWith
  write ha := absurd ha (h _)

/-- A reader may look at its position. -/
theorem position {k : Nat → Reader ε' α} (h : ∀ n, Codes P w (k n)) :
    Codes P w (Codec.position >>= k) where
  read hr := (h _).read (reads_position_bind.1 hr)
  write ha hb hn := reads_position_bind.2 ((h _).write ha hb hn)

/-- One field, then the rest: the value of the field is fixed from there on. -/
theorem field {P : β → Prop} {W : β → Writer ε Unit} {k : α → Reader ε' β} (h : Codes Q w r)
    (proj : β → α) (hQ : ∀ b, P b → Q (proj b))
    (hk : ∀ a, Q a → Codes (fun b => P b ∧ proj b = a) W (k a)) :
    Codes P (fun b => do w (proj b); W b) (r >>= k) where
  read {before rest b p} hr := by
    obtain ⟨a, middle, hr, hkr⟩ := reads_bind.1 hr
    obtain ⟨ha, bs, after, rfl, rfl, hw⟩ := h.read hr
    have hkr' : Reads (k a) (before ++ bs) after b p := by
      rw [Reads, List.append_assoc, List.length_append]
      exact hkr
    obtain ⟨⟨hb, rfl⟩, bs', after', rfl, rfl, hw'⟩ := (hk a ha).read hkr'
    refine ⟨hb, bs ++ bs', after', (List.append_assoc ..).symm, ?_, writes_bind.2 ⟨bs, bs', hw, hw', rfl⟩⟩
    simp only [List.length_append, Nat.add_assoc]
  write {before _ after b} hb hw hn := by
    obtain ⟨bs, bs', hw₁, hw₂, rfl⟩ := writes_bind.1 hw
    rw [List.append_assoc] at hn ⊢
    refine reads_bind.2 ⟨proj b, _, h.write (hQ b hb) hw₁ hn, ?_⟩
    have hk' : Reads (k (proj b)) (before ++ bs) (bs' ++ after) b ((before ++ bs).length + bs'.length) :=
      (hk _ (hQ b hb)).write ⟨hb, rfl⟩ hw₂ (by rwa [List.append_assoc])
    rw [Reads, List.append_assoc, List.length_append] at hk'
    rwa [List.length_append, ← Nat.add_assoc]

/-- A conversion that keeps what is written. -/
theorem map {P : β → Prop} {W : β → Writer ε Unit} (h : Codes Q w r) (f : α → β)
    (hf : ∀ a, Q a → P (f a) ∧ ∀ bs, Writes (W (f a)) bs ↔ Writes (w a) bs)
    (hg : ∀ b, P b → ∃ a, Q a ∧ f a = b) :
    Codes P W (do let a ← r; Pure.pure (f a) : Reader ε' β) where
  read hr := by
    obtain ⟨a, middle, hr, hpure⟩ := reads_bind.1 hr
    obtain ⟨ha, bs, after, rfl, rfl, hw⟩ := h.read hr
    cases hpure
    exact ⟨(hf a ha).1, bs, after, rfl, rfl, ((hf a ha).2 bs).2 hw⟩
  write hb hw hn := by
    obtain ⟨a, ha, rfl⟩ := hg _ hb
    exact reads_bind.2 ⟨a, _, h.write ha (((hf a ha).2 _).1 hw) hn, rfl⟩

/-- A conversion that some values do not have. -/
theorem mapOption {P : β → Prop} {W : β → Writer ε Unit} (h : Codes Q w r) (f : α → Option β)
    {e : ε'} (hf : ∀ a b, Q a → f a = some b → P b ∧ ∀ bs, Writes (W b) bs ↔ Writes (w a) bs)
    (hg : ∀ b, P b → ∃ a, Q a ∧ f a = some b) :
    Codes P W (do let a ← r; orReject (f a) e : Reader ε' β) where
  read {before rest b stop} hr := by
    obtain ⟨a, middle, hr, hopt⟩ := reads_bind.1 hr
    obtain ⟨ha, bs, after, rfl, rfl, hw⟩ := h.read hr
    cases hfa : f a with
    | none =>
      rw [hfa] at hopt
      cases hopt
    | some b' =>
      rw [hfa] at hopt
      cases hopt
      obtain ⟨hb, hbs⟩ := hf a _ ha hfa
      exact ⟨hb, bs, after, rfl, rfl, (hbs bs).2 hw⟩
  write hb hw hn := by
    obtain ⟨a, ha, hfa⟩ := hg _ hb
    refine reads_bind.2 ⟨a, _, h.write ha (((hf a _ ha hfa).2 _).1 hw) hn, ?_⟩
    rw [hfa]
    rfl

/-! ### Tagged values -/

section Tagged

variable {tag : β → UInt8} {body : β → Writer ε Unit} {t : UInt8}

/-- A tag, then what belongs to it. -/
theorem tagged {wt : UInt8 → Writer ε Unit} {rt : Reader ε' UInt8} {k : UInt8 → Reader ε' β}
    (h : Codes (fun _ => True) wt rt) (hk : ∀ t, Codes (fun b => tag b = t) body (k t)) :
    Codes (fun _ => True) (fun b => do wt (tag b); body b) (rt >>= k) :=
  h.field tag (fun _ _ => trivial) fun t _ =>
    (hk t).congr (fun _ => (iff_of_eq (true_and _)).symm) fun _ _ _ => Iff.rfl

/-- The value of a tag that belongs to one value only. -/
theorem constant (b : β) (hb : ∀ b', tag b' = t ↔ b' = b) (hbody : body b = Pure.pure ()) :
    Codes (fun b' => tag b' = t) body (Pure.pure b : Reader ε' β) := by
  refine (Codes.pure b).congr (fun b' => (hb b').symm) fun b' hb' bs => ?_
  rw [(hb b').1 hb', hbody]

/-- The values of a tag that carry another value. -/
theorem constructor (h : Codes (fun _ => True) w r) (f : α → β) (hf : ∀ b, tag b = t ↔ ∃ a, f a = b)
    (hbody : ∀ a, body (f a) = w a) :
    Codes (fun b => tag b = t) body (do let a ← r; Pure.pure (f a) : Reader ε' β) := by
  refine h.map f (fun a _ => ⟨(hf _).2 ⟨a, rfl⟩, fun bs => by rw [hbody]⟩) fun b hb => ?_
  obtain ⟨a, ha⟩ := (hf b).1 hb
  exact ⟨a, trivial, ha⟩

end Tagged

/-- One value, then another. -/
theorem pair {P : β → Prop} {w' : β → Writer ε Unit} {r' : Reader ε' β} (h : Codes Q w r)
    (h' : Codes P w' r') :
    Codes (fun p : α × β => Q p.1 ∧ P p.2) (fun p => do w p.1; w' p.2)
      (do let a ← r; let b ← r'; Pure.pure (a, b)) := by
  refine h.field Prod.fst (fun p hp => hp.1) fun a ha => ?_
  refine h'.map (a, ·) (fun b hb => ⟨⟨⟨ha, hb⟩, rfl⟩, fun _ => Iff.rfl⟩) ?_
  rintro ⟨_, b⟩ ⟨⟨-, hb⟩, rfl⟩
  exact ⟨b, hb, rfl⟩

/-- A writer that refuses every value outside `P`. -/
theorem guard (h : Codes P w r) (hw : ∀ a bs, Writes (w' a) bs ↔ P a ∧ Writes (w a) bs) :
    Codes (fun _ => True) w' r where
  read hr := by
    obtain ⟨ha, bs, after, h₁, h₂, h₃⟩ := h.read hr
    exact ⟨trivial, bs, after, h₁, h₂, (hw _ bs).2 ⟨ha, h₃⟩⟩
  write _ hb := h.write ((hw _ _).1 hb).1 ((hw _ _).1 hb).2

/-- So many items, one after the other. -/
theorem items (h : Codes P w r) (n : Nat) :
    Codes (fun as : List α => as.length = n ∧ ∀ a ∈ as, P a) (putItems w) (getItems r n) := by
  induction n with
  | zero =>
    refine (Codes.pure []).congr (fun as => ?_) fun as has bs => ?_
    · rw [List.length_eq_zero_iff]
      constructor
      · rintro rfl
        simp
      · exact And.left
    · rw [List.length_eq_zero_iff.1 has.1]
      exact Iff.rfl
  | succ n ih =>
    have hpair := (h.pair ih).map (P := fun as => as.length = n + 1 ∧ ∀ a ∈ as, P a)
      (W := putItems w) (fun p => p.1 :: p.2) ?_ ?_
    · simpa only [getItems, bind_assoc, pure_bind] using hpair
    · rintro ⟨a, as⟩ ⟨ha, hlen, has⟩
      exact ⟨⟨congrArg (· + 1) hlen, by simpa using ⟨ha, has⟩⟩, fun _ => Iff.rfl⟩
    · rintro (_ | ⟨a, as⟩) ⟨hlen, has⟩
      · cases hlen
      · exact ⟨(a, as), ⟨has a List.mem_cons_self, Nat.succ.inj hlen,
          fun a ha => has a (List.mem_cons_of_mem _ ha)⟩, rfl⟩

end Codes

/-! ## Little-endian numbers -/

/-- The low bytes of a number, the lowest first. -/
def leBytes : Nat → Nat → List UInt8
  | 0, _ => []
  | width + 1, n => .ofNat n :: leBytes width (n / 256)

/-- The number that bytes spell, the lowest first. -/
def ofLeBytes : List UInt8 → Nat
  | [] => 0
  | b :: bs => b.toNat + 256 * ofLeBytes bs

@[simp] theorem length_leBytes (width n : Nat) : (leBytes width n).length = width := by
  induction width generalizing n with
  | zero => rfl
  | succ width ih => rw [leBytes, List.length_cons, ih]

theorem ofLeBytes_lt (bs : List UInt8) : ofLeBytes bs < 256 ^ bs.length := by
  induction bs with
  | nil => exact Nat.one_pos
  | cons b bs ih =>
    have hb : b.toNat < 256 := b.toNat_lt
    rw [ofLeBytes, List.length_cons, Nat.pow_succ]
    omega

theorem ofLeBytes_leBytes {width n : Nat} (h : n < 256 ^ width) : ofLeBytes (leBytes width n) = n := by
  induction width generalizing n with
  | zero =>
    rw [Nat.pow_zero, Nat.lt_one_iff] at h
    subst h
    rfl
  | succ width ih =>
    have hdiv : n / 256 < 256 ^ width := by
      rw [Nat.pow_succ] at h
      omega
    rw [leBytes, ofLeBytes, ih hdiv, UInt8.toNat_ofNat']
    exact Nat.mod_add_div n 256

theorem leBytes_ofLeBytes (bs : List UInt8) : leBytes bs.length (ofLeBytes bs) = bs := by
  induction bs with
  | nil => rfl
  | cons b bs ih =>
    have hb : b.toNat < 256 := b.toNat_lt
    have hdiv : (b.toNat + 256 * ofLeBytes bs) / 256 = ofLeBytes bs := by omega
    have hlow : UInt8.ofNat (b.toNat + 256 * ofLeBytes bs) = b := by
      rw [← UInt8.toNat_inj, UInt8.toNat_ofNat']
      omega
    rw [List.length_cons, leBytes, ofLeBytes, hdiv, ih, hlow]

end Codec
