import Dellingr.Lib.HashTable
import Dellingr.Lib.SlotMap
import Dellingr.Vm.Collector
import Dellingr.Vm.StringPool

/-!
# The pool of interned strings

The pool keeps its strings in a slot map, which gives out their handles, and finds them
through a table of handles placed by the hash of the bytes. The two are changed one
after the other: an insertion adds to the slot map and then to the table, and a
collection (`StringPool.collect`) frees all unmarked strings before it removes their
handles from the table, which then holds handles that name nothing. Growing the table
asks for the hash of every handle in it, and fails on such a handle; so does removing a
handle the table does not hold.

In every run (`Reachable`) the table holds the handle of each string, once and under the
hash of its bytes, and no two strings have the same bytes (`StringPool.Wf`), for any
hash function and wherever the table keeps its entries. So nothing fails, and the pool
does what the pool of the machine does (`allocStringRaw_refines`).
-/

namespace Dellingr.Interning

open HashTable

/-- An interned string, with the hash of its bytes. -/
structure StringEntry where
  data : List UInt8
  hash : UInt64
  color : Color := .unmarked

/-- What a sweep leaves of a string. -/
def StringEntry.swept (e : StringEntry) : Option StringEntry :=
  match e.color with
  | .reachable => some { e with color := .unmarked }
  | .unmarked => none

/-- The strings, and their handles placed by the hashes of their bytes. -/
structure StringPool where
  strings : SlotMap StringPtr StringEntry
  index : HashTable StringPtr

namespace StringPool

def new : StringPool := ⟨.empty, .empty⟩

/-- The hash of a live string; a handle that names nothing has none. -/
def entryHash (strings : SlotMap StringPtr StringEntry) (key : StringPtr) : Option UInt64 :=
  (strings.get key).map StringEntry.hash

variable (pool : StringPool)

/-- Reserve room for more strings, for which the table may grow. -/
def reserve (grow : Bool) : Option StringPool := do
  let index ← if grow then pool.index.rehash (entryHash pool.strings) else some pool.index
  some { pool with index }

/-- Whether a handle names a string. -/
def contains (p : StringPtr) : Bool := pool.strings.contains p

/-- The bytes of a string; `none` if it was freed. -/
def get (p : StringPtr) : Option (List UInt8) := (pool.strings.get p).map StringEntry.data

/-- Find a string by its bytes and their hash. -/
def findByHash (P : Probe StringPtr) (bytes : List UInt8) (hash : UInt64) : Option StringPtr :=
  pool.index.find P hash fun key => (pool.strings.get key).any fun e => e.data = bytes

/-- Add a string with its hash. -/
def insertWithHash (grow : Bool) (bytes : List UInt8) (hash : UInt64) :
    Option (StringPtr × StringPool) := do
  let key := pool.strings.fresh
  let strings := pool.strings.insert ⟨bytes, hash, .unmarked⟩
  let index ← pool.index.insertUnique hash key (entryHash strings) grow
  some (key, ⟨strings, index⟩)

/-- Mark a string. -/
def mark (p : StringPtr) : StringPool :=
  { pool with strings := pool.strings.modify p fun e => { e with color := .reachable } }

/-- Remove the handles of freed strings from the table; `none` if one is not there. -/
def removeAll (P : StringPtr → Probe StringPtr) :
    List (StringPtr × UInt64) → HashTable StringPtr → Option (HashTable StringPtr)
  | [], index => some index
  | (key, hash) :: removed, index =>
    match index.findEntry (P key) hash (· == key) with
    | some e => removeAll P removed (index.remove e)
    | none => none

/-- The handles and hashes of the strings that are not marked. -/
def unmarked : List (StringPtr × UInt64) :=
  pool.strings.entries.filterMap fun e =>
    match e.2.color with
    | .reachable => none
    | .unmarked => some (e.1, e.2.hash)

/-- Free the strings that are not marked, and unmark the others. -/
def collect (P : StringPtr → Probe StringPtr) : Option StringPool := do
  let strings := pool.strings.filterMap StringEntry.swept
  let index ← removeAll P pool.unmarked pool.index
  some ⟨strings, index⟩

variable (hashBytes : List UInt8 → UInt64)

def findString (P : Probe StringPtr) (bytes : List UInt8) : Option StringPtr :=
  pool.findByHash P bytes (hashBytes bytes)

/-- Allocate or intern a string. -/
def allocStringRaw (P : Probe StringPtr) (grow : Bool) (bytes : List UInt8) :
    Option (StringPtr × StringPool) :=
  match pool.findByHash P bytes (hashBytes bytes) with
  | some p => some (p, pool)
  | none => pool.insertWithHash grow bytes (hashBytes bytes)

/-- The bytes in a range; `none` if it lies outside. -/
def slice (bytes : List UInt8) (start stop : Nat) : Option (List UInt8) :=
  if start ≤ stop ∧ stop ≤ bytes.length then some ((bytes.take stop).drop start) else none

/-- Intern a range of an interned string; no handle if the range lies outside it. -/
def allocStringFromRangeRaw (P : Probe StringPtr) (grow : Bool) (source : StringPtr)
    (start stop : Nat) : Option (Option StringPtr × StringPool) := do
  let data ← pool.get source
  match slice data start stop with
  | none => some (none, pool)
  | some bytes =>
    let (p, pool) ← pool.allocStringRaw hashBytes P grow bytes
    some (some p, pool)

end StringPool

/-! ## Runs -/

/-- An operation, with the entries that its searches test and whether the table grows. -/
inductive Op
  | allocString (P : Probe StringPtr) (grow : Bool) (bytes : List UInt8)
  | allocStringFromRange (P : Probe StringPtr) (grow : Bool) (source : StringPtr) (start stop : Nat)
  | findString (P : Probe StringPtr) (bytes : List UInt8)
  | reserve (grow : Bool)
  | mark (p : StringPtr)
  | collect (P : StringPtr → Probe StringPtr)

/-- The pool after an operation; `none` if it fails. -/
def Op.apply (hashBytes : List UInt8 → UInt64) (pool : StringPool) : Op → Option StringPool
  | allocString P grow bytes => (pool.allocStringRaw hashBytes P grow bytes).map Prod.snd
  | allocStringFromRange P grow source start stop =>
    (pool.allocStringFromRangeRaw hashBytes P grow source start stop).map Prod.snd
  | findString _ _ => some pool
  | reserve grow => pool.reserve grow
  | mark p => some (pool.mark p)
  | collect P => pool.collect P

/-- The pools that runs of operations lead to. -/
inductive Reachable (hashBytes : List UInt8 → UInt64) : StringPool → Prop
  | new : Reachable hashBytes .new
  | step {pool pool' : StringPool} (op : Op) : Reachable hashBytes pool →
      op.apply hashBytes pool = some pool' → Reachable hashBytes pool'

/-! ## The table and the strings -/

/-- The table holds the handle of each string, once and under the hash of its bytes, and no
    two strings have the same bytes. -/
structure StringPool.Wf (hashBytes : List UInt8 → UInt64) (pool : StringPool) : Prop where
  hash : ∀ p e, pool.strings.get p = some e → e.hash = hashBytes e.data
  index : ∀ hash p, (hash, p) ∈ pool.index.entries ↔ ∃ e, pool.strings.get p = some e ∧ e.hash = hash
  nodup : pool.index.keys.Nodup
  content : ∀ p q e e', pool.strings.get p = some e → pool.strings.get q = some e' →
    e.data = e'.data → p = q

namespace StringPool

variable {hashBytes : List UInt8 → UInt64} {pool pool' : StringPool} {P : Probe StringPtr}
  {bytes : List UInt8} {p : StringPtr} {grow : Bool}

theorem get_eq_some : pool.get p = some bytes ↔ ∃ e, pool.strings.get p = some e ∧ e.data = bytes :=
  Option.map_eq_some_iff

theorem Wf.new : StringPool.new.Wf hashBytes := by
  refine ⟨fun p e h => ?_, fun hash p => ⟨nofun, fun ⟨e, h, _⟩ => ?_⟩, List.nodup_nil, fun p q e e' h => ?_⟩
  all_goals
    rw [StringPool.new, SlotMap.get_empty] at h
    cases h

/-- Every handle of the table has the hash it is placed by. -/
theorem Wf.entryHash (h : pool.Wf hashBytes) :
    ∀ e ∈ pool.index.entries, entryHash pool.strings e.2 = some e.1 := by
  intro e he
  obtain ⟨entry, hget, hhash⟩ := (h.index e.1 e.2).1 he
  rw [StringPool.entryHash, hget]
  exact congrArg some hhash

/-- Whether a handle names a string with the given bytes. -/
theorem any_data : (pool.strings.get p).any (fun e => e.data = bytes) = true ↔ pool.get p = some bytes := by
  rw [Option.any_eq_true, get_eq_some]
  simp only [decide_eq_true_iff]

/-- A search finds the string with the bytes, if there is one. -/
theorem Wf.findString_eq_some (h : pool.Wf hashBytes) :
    pool.findString hashBytes P bytes = some p ↔ pool.get p = some bytes := by
  rw [findString, findByHash, HashTable.find, Option.map_eq_some_iff]
  constructor
  · rintro ⟨e, he, rfl⟩
    exact any_data.1 (of_findEntry he).2
  · intro hp
    obtain ⟨entry, hentry, rfl⟩ := get_eq_some.1 hp
    refine ⟨(entry.hash, p), findEntry_of_unique ((h.index _ _).2 ⟨entry, hentry, rfl⟩)
      (h.hash p entry hentry) (any_data.2 hp) fun e he htest => ?_, rfl⟩
    -- Another handle with these bytes is the same handle, under the same hash.
    obtain ⟨entry', hentry', hdata⟩ := get_eq_some.1 (any_data.1 htest)
    obtain ⟨entry'', hentry'', hhash⟩ := (h.index e.1 e.2).1 he
    have hkey : e.2 = p := h.content _ _ _ _ hentry' hentry hdata
    rw [hkey, hentry] at hentry''
    cases hentry''
    exact Prod.ext hhash.symm hkey

theorem Wf.findString_eq_none (h : pool.Wf hashBytes) :
    pool.findString hashBytes P bytes = none ↔ ∀ p, pool.get p ≠ some bytes := by
  rw [Option.eq_none_iff_forall_ne_some]
  exact forall_congr' fun p => not_congr h.findString_eq_some

/-- Reserving room changes nothing. -/
theorem Wf.reserve (h : pool.Wf hashBytes) (grow : Bool) : pool.reserve grow = some pool := by
  rw [StringPool.reserve, rehash_eq_some h.entryHash, ite_self]
  rfl

/-- Marking changes colours only. -/
theorem Wf.mark (h : pool.Wf hashBytes) (p : StringPtr) : (pool.mark p).Wf hashBytes := by
  have hget : ∀ q e, (pool.mark p).strings.get q = some e →
      ∃ e', pool.strings.get q = some e' ∧ e'.data = e.data ∧ e'.hash = e.hash := by
    intro q e hq
    rw [StringPool.mark, SlotMap.get_modify] at hq
    split at hq
    · obtain ⟨e', he', rfl⟩ := Option.map_eq_some_iff.1 hq
      exact ⟨e', he', rfl, rfl⟩
    · exact ⟨e, hq, rfl, rfl⟩
  refine ⟨fun q e hq => ?_, fun hash q => ?_, h.nodup, fun q r e e' hq hr hdata => ?_⟩
  · obtain ⟨e', he', hdata, hhash⟩ := hget q e hq
    rw [← hdata, ← hhash]
    exact h.hash q e' he'
  · refine (h.index hash q).trans ⟨?_, ?_⟩
    · rintro ⟨e, he, hhash⟩
      rw [StringPool.mark, SlotMap.get_modify, he]
      split
      · exact ⟨_, rfl, hhash⟩
      · exact ⟨e, rfl, hhash⟩
    · rintro ⟨e, he, hhash⟩
      obtain ⟨e', he', -, hhash'⟩ := hget q e he
      exact ⟨e', he', hhash'.trans hhash⟩
  · obtain ⟨d, hd, hdata₁, -⟩ := hget q e hq
    obtain ⟨d', hd', hdata₂, -⟩ := hget r e' hr
    exact h.content q r d d' hd hd' (hdata₁.trans (hdata.trans hdata₂.symm))

/-- Adding a string whose bytes are new. -/
theorem Wf.insertWithHash (h : pool.Wf hashBytes) (hnew : ∀ p, pool.get p ≠ some bytes) (grow : Bool) :
    ∃ pool', pool.insertWithHash grow bytes (hashBytes bytes) = some (pool.strings.fresh, pool') ∧
      pool'.strings = pool.strings.insert ⟨bytes, hashBytes bytes, .unmarked⟩ ∧ pool'.Wf hashBytes := by
  have hget : ∀ q, (pool.strings.insert ⟨bytes, hashBytes bytes, .unmarked⟩).get q =
      if q = pool.strings.fresh then some ⟨bytes, hashBytes bytes, .unmarked⟩ else pool.strings.get q :=
    fun q => SlotMap.get_insert
  have hold : ∀ {q e}, pool.strings.get q = some e → q ≠ pool.strings.fresh := by
    rintro q e hq rfl
    rw [SlotMap.get_fresh] at hq
    cases hq
  -- The handles of the table are those of old strings, so growing finds their hashes.
  have hhash : ∀ e ∈ pool.index.entries,
      StringPool.entryHash (pool.strings.insert ⟨bytes, hashBytes bytes, .unmarked⟩) e.2 = some e.1 := by
    intro e he
    obtain ⟨entry, hentry, heq⟩ := (h.index e.1 e.2).1 he
    rw [StringPool.entryHash, hget, if_neg (hold hentry), hentry]
    exact congrArg some heq
  refine ⟨⟨pool.strings.insert ⟨bytes, hashBytes bytes, .unmarked⟩,
    ⟨pool.index.entries ++ [(hashBytes bytes, pool.strings.fresh)]⟩⟩, ?_, rfl, ?_⟩
  · rw [StringPool.insertWithHash, insertUnique_eq_some hhash]
    rfl
  · refine ⟨fun q e hq => ?_, fun hash q => ?_, ?_, fun q r e e' hq hr hdata => ?_⟩
    · rw [hget] at hq
      split at hq
      · cases hq
        rfl
      · exact h.hash q e hq
    · rw [List.mem_append, List.mem_singleton, h.index, hget]
      constructor
      · rintro (⟨e, he, hhash⟩ | heq)
        · rw [if_neg (hold he)]
          exact ⟨e, he, hhash⟩
        · cases heq
          rw [if_pos rfl]
          exact ⟨_, rfl, rfl⟩
      · rintro ⟨e, he, hhash⟩
        split at he
        · next hq =>
          cases he
          exact .inr (Prod.ext hhash.symm hq)
        · exact .inl ⟨e, he, hhash⟩
    · rw [keys, List.map_append]
      refine List.nodup_append_comm.1 (List.nodup_cons.2 ⟨fun hmem => ?_, h.nodup⟩)
      obtain ⟨e, he, heq⟩ := List.mem_map.1 hmem
      obtain ⟨entry, hentry, -⟩ := (h.index e.1 e.2).1 he
      exact hold hentry heq
    · rw [hget] at hq hr
      split at hq
      · next hqf =>
        split at hr
        · next hrf => exact hqf.trans hrf.symm
        · cases hq
          exact absurd (get_eq_some.2 ⟨e', hr, hdata.symm⟩) (hnew r)
      · split at hr
        · cases hr
          exact absurd (get_eq_some.2 ⟨e, hq, hdata⟩) (hnew q)
        · exact h.content q r e e' hq hr hdata

/-- Interning bytes: they have the handle, and the pool had it or is grown by it. -/
theorem Wf.allocStringRaw (h : pool.Wf hashBytes) (P : Probe StringPtr) (grow : Bool) (bytes : List UInt8) :
    ∃ p pool', pool.allocStringRaw hashBytes P grow bytes = some (p, pool') ∧ pool'.Wf hashBytes ∧
      ((pool' = pool ∧ pool.get p = some bytes) ∨
        (p = pool.strings.fresh ∧ (∀ q, pool.get q ≠ some bytes) ∧
          pool'.strings = pool.strings.insert ⟨bytes, hashBytes bytes, .unmarked⟩)) := by
  have hfind : pool.findByHash P bytes (hashBytes bytes) = pool.findString hashBytes P bytes := rfl
  cases hp : pool.findString hashBytes P bytes with
  | some p =>
    refine ⟨p, pool, ?_, h, .inl ⟨rfl, h.findString_eq_some.1 hp⟩⟩
    simp only [StringPool.allocStringRaw, hfind, hp]
  | none =>
    have hnew := h.findString_eq_none.1 hp
    obtain ⟨pool', hpool', hstrings, hwf⟩ := h.insertWithHash hnew grow
    refine ⟨_, pool', ?_, hwf, .inr ⟨rfl, hnew, hstrings⟩⟩
    simp only [StringPool.allocStringRaw, hfind, hp]
    exact hpool'

/-! ## Collections -/

/-- Removing handles that the table holds under their hashes, once each. -/
theorem removeAll_eq_some {P : StringPtr → Probe StringPtr} {removed : List (StringPtr × UInt64)}
    {index : HashTable StringPtr} (hnodup : index.keys.Nodup)
    (hremoved : (removed.map Prod.fst).Nodup) (hmem : ∀ r ∈ removed, (r.2, r.1) ∈ index.entries) :
    ∃ index', removeAll P removed index = some index' ∧ index'.keys.Nodup ∧
      ∀ e, e ∈ index'.entries ↔ e ∈ index.entries ∧ e.2 ∉ removed.map Prod.fst := by
  induction removed generalizing index with
  | nil => exact ⟨index, rfl, hnodup, fun e => ⟨fun he => ⟨he, List.not_mem_nil⟩, And.left⟩⟩
  | cons r removed ih =>
    obtain ⟨key, hash⟩ := r
    obtain ⟨hkey, hrest⟩ := List.nodup_cons.1 hremoved
    obtain ⟨hfirst, hothers⟩ := List.forall_mem_cons.1 hmem
    have hfind : index.findEntry (P key) hash (· == key) = some (hash, key) := by
      refine findEntry_of_unique hfirst rfl (beq_self_eq_true key) fun e he htest => ?_
      exact List.inj_on_of_nodup_map hnodup he hfirst (eq_of_beq htest)
    have hentries : ∀ e, e ∈ (index.remove (hash, key)).entries ↔ e ∈ index.entries ∧ e.2 ≠ key := by
      intro e
      have hiff : e ∈ index.entries.erase (hash, key) ↔ e ≠ (hash, key) ∧ e ∈ index.entries :=
        hnodup.of_map.mem_erase_iff
      refine hiff.trans ⟨fun ⟨hne, he⟩ => ⟨he, fun heq => hne ?_⟩, fun ⟨he, hne⟩ => ⟨fun heq => ?_, he⟩⟩
      · exact List.inj_on_of_nodup_map hnodup he hfirst heq
      · exact hne (congrArg Prod.snd heq)
    have hless : (index.remove (hash, key)).keys.Nodup := hnodup.sublist (List.erase_sublist.map _)
    obtain ⟨index', hindex', hnodup', hiff⟩ := ih hless hrest fun r hr =>
      (hentries _).2 ⟨hothers r hr, fun heq => hkey (List.mem_map.2 ⟨r, hr, heq⟩)⟩
    refine ⟨index', ?_, hnodup', fun e => ?_⟩
    · rw [removeAll, hfind]
      exact hindex'
    · rw [hiff, hentries, List.map_cons, List.mem_cons, not_or, and_assoc]

/-- The handles that a collection removes are those of the unmarked strings. -/
theorem mem_unmarked {hash : UInt64} :
    (p, hash) ∈ pool.unmarked ↔ ∃ e, pool.strings.get p = some e ∧ e.color = .unmarked ∧ e.hash = hash := by
  rw [unmarked, List.mem_filterMap]
  constructor
  · rintro ⟨⟨q, e⟩, he, heq⟩
    cases hc : e.color with
    | reachable =>
      simp only [hc] at heq
      cases heq
    | unmarked =>
      simp only [hc] at heq
      cases heq
      exact ⟨e, SlotMap.get_eq_some.2 he, hc, rfl⟩
  · rintro ⟨e, he, hc, rfl⟩
    refine ⟨(p, e), SlotMap.get_eq_some.1 he, ?_⟩
    simp only [hc]

theorem nodup_unmarked : (pool.unmarked.map Prod.fst).Nodup := by
  refine pool.strings.unique.sublist ?_
  rw [unmarked, List.map_filterMap]
  induction pool.strings.entries with
  | nil => exact .slnil
  | cons e entries ih =>
    rw [List.filterMap_cons]
    cases e.2.color with
    | reachable => exact ih.cons _
    | unmarked => exact ih.cons_cons _

/-- A string is kept if it is marked, and is then unmarked. -/
theorem get_swept {e : StringEntry} :
    (pool.strings.filterMap StringEntry.swept).get p = some e ↔
      ∃ e', pool.strings.get p = some e' ∧ e'.color = .reachable ∧ e = { e' with color := .unmarked } := by
  rw [SlotMap.get_filterMap, Option.bind_eq_some_iff]
  refine exists_congr fun e' => and_congr_right fun _ => ?_
  cases hc : e'.color with
  | reachable => simp [StringEntry.swept, hc, eq_comm]
  | unmarked => simp [StringEntry.swept, hc]

/-- A collection succeeds. -/
theorem Wf.collect (h : pool.Wf hashBytes) (P : StringPtr → Probe StringPtr) :
    ∃ pool', pool.collect P = some pool' ∧ pool'.Wf hashBytes ∧
      pool'.strings = pool.strings.filterMap StringEntry.swept := by
  have hmem : ∀ r ∈ pool.unmarked, (r.2, r.1) ∈ pool.index.entries := by
    rintro ⟨p, hash⟩ hr
    obtain ⟨e, he, -, hhash⟩ := mem_unmarked.1 hr
    exact (h.index hash p).2 ⟨e, he, hhash⟩
  obtain ⟨index, hindex, hnodup, hiff⟩ := removeAll_eq_some (P := P) h.nodup nodup_unmarked hmem
  refine ⟨⟨pool.strings.filterMap StringEntry.swept, index⟩, ?_, ?_, rfl⟩
  · rw [StringPool.collect, hindex]
    rfl
  · refine ⟨fun p e hp => ?_, fun hash p => ?_, hnodup, fun p q e e' hp hq hdata => ?_⟩
    · obtain ⟨d, hd, -, rfl⟩ := get_swept.1 hp
      exact h.hash p d hd
    · rw [hiff, h.index]
      constructor
      · rintro ⟨⟨e, he, hhash⟩, hnot⟩
        cases hc : e.color with
        | reachable => exact ⟨_, get_swept.2 ⟨e, he, hc, rfl⟩, hhash⟩
        | unmarked =>
          exact absurd (List.mem_map_of_mem (mem_unmarked.2 ⟨e, he, hc, hhash⟩)) hnot
      · rintro ⟨e, he, hhash⟩
        obtain ⟨d, hd, hc, rfl⟩ := get_swept.1 he
        refine ⟨⟨d, hd, hhash⟩, fun hmem => ?_⟩
        obtain ⟨⟨q, hash'⟩, hr, rfl⟩ := List.mem_map.1 hmem
        obtain ⟨d', hd', hc', -⟩ := mem_unmarked.1 hr
        rw [hd] at hd'
        cases hd'
        rw [hc] at hc'
        cases hc'
    · obtain ⟨d, hd, -, rfl⟩ := get_swept.1 hp
      obtain ⟨d', hd', -, rfl⟩ := get_swept.1 hq
      exact h.content p q d d' hd hd' hdata

end StringPool

/-! ## Every run -/

variable {hashBytes : List UInt8 → UInt64} {pool pool' : StringPool}

theorem StringPool.Wf.apply (h : pool.Wf hashBytes) {op : Op} (hop : op.apply hashBytes pool = some pool') :
    pool'.Wf hashBytes := by
  cases op with
  | allocString P grow bytes =>
    obtain ⟨p, pool₁, hok, hwf, -⟩ := h.allocStringRaw P grow bytes
    rw [Op.apply, hok] at hop
    cases hop
    exact hwf
  | allocStringFromRange P grow source start stop =>
    obtain ⟨⟨r, pool₁⟩, hr, rfl⟩ := Option.map_eq_some_iff.1 hop
    obtain ⟨data, -, hr⟩ := Option.bind_eq_some_iff.1 hr
    cases hs : StringPool.slice data start stop with
    | none =>
      simp only [hs] at hr
      cases hr
      exact h
    | some bytes =>
      obtain ⟨p, pool₂, hok, hwf, -⟩ := h.allocStringRaw P grow bytes
      simp only [hs, hok] at hr
      cases hr
      exact hwf
  | findString P bytes =>
    cases hop
    exact h
  | reserve grow =>
    rw [Op.apply, h.reserve] at hop
    cases hop
    exact h
  | mark p =>
    cases hop
    exact h.mark p
  | collect P =>
    obtain ⟨pool₁, hok, hwf, -⟩ := h.collect P
    rw [Op.apply, hok] at hop
    cases hop
    exact hwf

theorem Reachable.wf (h : Reachable hashBytes pool) : pool.Wf hashBytes := by
  induction h with
  | new => exact .new
  | step op _ hop ih => exact ih.apply hop

/-- In every run the table holds the handle of each live string once and no other, two live
    handles are equal exactly if their bytes are, a search finds the string with the bytes,
    and no allocation, reservation or collection fails, for any hash function and wherever
    the table keeps its entries. -/
theorem string_interning (hashBytes : List UInt8 → UInt64) (pool : StringPool)
    (h : Reachable hashBytes pool) :
    (∀ p, pool.index.keys.count p = if pool.contains p then 1 else 0) ∧
    (∀ p q b c, pool.get p = some b → pool.get q = some c →
      ((Val.str p).eq (.str q) = true ↔ b = c)) ∧
    (∀ P bytes p, pool.findString hashBytes P bytes = some p ↔ pool.get p = some bytes) ∧
    (∀ P, ∃ pool', pool.collect P = some pool') ∧
    (∀ grow, ∃ pool', pool.reserve grow = some pool') ∧
    ∀ P grow bytes, ∃ p pool', pool.allocStringRaw hashBytes P grow bytes = some (p, pool') ∧
      pool'.get p = some bytes := by
  have hwf := h.wf
  refine ⟨fun p => ?_, fun p q b c hp hq => ?_, fun P bytes p => hwf.findString_eq_some, fun P => ?_,
    fun grow => ⟨pool, hwf.reserve grow⟩, fun P grow bytes => ?_⟩
  · rw [hwf.nodup.count]
    refine if_congr ?_ rfl rfl
    rw [HashTable.keys, StringPool.contains, SlotMap.contains_iff, List.mem_map]
    constructor
    · rintro ⟨e, he, rfl⟩
      obtain ⟨entry, hentry, -⟩ := (hwf.index e.1 e.2).1 he
      exact ⟨entry, hentry⟩
    · rintro ⟨entry, hentry⟩
      exact ⟨_, (hwf.index entry.hash p).2 ⟨entry, hentry, rfl⟩, rfl⟩
  · obtain ⟨e, he, rfl⟩ := StringPool.get_eq_some.1 hp
    obtain ⟨e', he', rfl⟩ := StringPool.get_eq_some.1 hq
    refine beq_iff_eq.trans ⟨?_, hwf.content p q e e' he he'⟩
    rintro rfl
    rw [he] at he'
    cases he'
    rfl
  · obtain ⟨pool', hok, -⟩ := hwf.collect P
    exact ⟨pool', hok⟩
  · obtain ⟨p, pool', hok, -, ⟨rfl, hp⟩ | ⟨rfl, -, hstrings⟩⟩ := hwf.allocStringRaw P grow bytes
    · exact ⟨p, pool', hok, hp⟩
    · refine ⟨_, pool', hok, ?_⟩
      rw [StringPool.get, hstrings, SlotMap.get_insert, if_pos rfl]
      rfl

/-- A search that tests every entry. -/
def probeAll : Probe StringPtr := ⟨fun _ entries => entries, fun _ _ _ he => he, fun _ _ _ he _ => he⟩

/-- Two strings of one hash, of which a collection frees the first. -/
theorem string_interning_collision :
    ∃ pool, Reachable (fun _ => 0) pool ∧ pool.findString (fun _ => 0) probeAll [97] = none ∧
      pool.get ⟨1, 0⟩ = some [98] ∧ pool.findString (fun _ => 0) probeAll [98] = some ⟨1, 0⟩ := by
  have hreach : Reachable (fun _ => 0) ⟨⟨[(⟨1, 0⟩, ⟨[98], 0, .unmarked⟩)], 2, by simp, by simp [Handle.toNat]⟩,
      ⟨[(0, ⟨1, 0⟩)]⟩⟩ :=
    .step (.collect fun _ => probeAll) (.step (.mark ⟨1, 0⟩) (.step (.allocString probeAll true [98])
      (.step (.allocString probeAll true [97]) .new rfl) rfl) rfl) rfl
  exact ⟨_, hreach, rfl, rfl, ((string_interning _ _ hreach).2.2.1 probeAll [98] ⟨1, 0⟩).2 rfl⟩

/-! ## The pool of the machine -/

/-- The strings of a pool by their handles, as the machine sees them. -/
def StringPool.contents (pool : StringPool) (h : pool.Wf hashBytes) : Dellingr.StringPool where
  strings := pool.strings.entries.map fun e => (e.1, e.2.data)
  next := pool.strings.next
  unique := by
    have hkeys := pool.strings.unique
    rw [List.Nodup, List.pairwise_map] at hkeys
    rw [List.pairwise_map]
    refine hkeys.imp_of_mem fun {a b} ha hb hne => ⟨hne, fun hdata => hne ?_⟩
    exact h.content _ _ _ _ (SlotMap.get_eq_some.2 ha) (SlotMap.get_eq_some.2 hb) hdata
  old := by
    intro e he
    obtain ⟨a, ha, rfl⟩ := List.mem_map.1 he
    exact pool.strings.old a ha

theorem contents_get (h : pool.Wf hashBytes) (p : StringPtr) : (pool.contents h).get p = pool.get p := by
  ext bytes
  rw [Dellingr.StringPool.get_eq_some, StringPool.get_eq_some, StringPool.contents, List.mem_map]
  constructor
  · rintro ⟨⟨q, e⟩, he, heq⟩
    cases heq
    exact ⟨e, SlotMap.get_eq_some.2 he, rfl⟩
  · rintro ⟨e, he, rfl⟩
    exact ⟨(p, e), SlotMap.get_eq_some.1 he, rfl⟩

theorem contents_congr (h : pool.Wf hashBytes) {abstract : Dellingr.StringPool}
    (hstrings : abstract.strings = pool.strings.entries.map fun e => (e.1, e.2.data))
    (hnext : abstract.next = pool.strings.next) : abstract = pool.contents h := by
  cases abstract
  simp only at hstrings hnext
  subst hstrings hnext
  rfl

/-- Interning bytes does to the strings what it does in the pool of the machine, and gives
    out the same handle. -/
theorem allocStringRaw_refines (h : pool.Wf hashBytes) {P : Probe StringPtr} {grow : Bool}
    {bytes : List UInt8} {p : StringPtr} (ha : pool.allocStringRaw hashBytes P grow bytes = some (p, pool')) :
    ∃ h' : pool'.Wf hashBytes, (pool.contents h).alloc bytes = (p, pool'.contents h') := by
  obtain ⟨q, pool₁, hok, hwf, hcases⟩ := h.allocStringRaw P grow bytes
  rw [ha] at hok
  cases hok
  refine ⟨hwf, ?_⟩
  unfold Dellingr.StringPool.alloc
  obtain ⟨rfl, hp⟩ | ⟨rfl, hnew, hstrings⟩ := hcases
  · have hfind := Dellingr.StringPool.find_eq_some.2 ((contents_get h p).trans hp)
    split
    · next q hq =>
      rw [hfind] at hq
      cases hq
      rfl
    · next hnone =>
      rw [hfind] at hnone
      cases hnone
  · split
    · next q hq =>
      exact absurd ((contents_get h q).symm.trans (Dellingr.StringPool.find_eq_some.1 hq)) (hnew q)
    · refine Prod.ext rfl (contents_congr hwf ?_ ?_)
      · rw [hstrings, SlotMap.insert, List.map_append]
        rfl
      · rw [hstrings]
        rfl

/-- A collection keeps the marked strings, as it does in the pool of the machine. -/
theorem collect_refines (h : pool.Wf hashBytes) {P : StringPtr → Probe StringPtr}
    (hc : pool.collect P = some pool') :
    ∃ h' : pool'.Wf hashBytes, (pool.contents h).retain
      (fun p => (pool.strings.get p).any fun e => e.color = .reachable) = pool'.contents h' := by
  obtain ⟨pool₁, hok, hwf, hstrings⟩ := h.collect P
  rw [hc] at hok
  cases hok
  refine ⟨hwf, contents_congr hwf ?_ (by rw [hstrings]; rfl)⟩
  rw [hstrings, Dellingr.StringPool.retain, StringPool.contents, SlotMap.filterMap]
  simp only [List.map_filterMap, List.filter_map]
  rw [← List.filterMap_eq_filter, List.map_filterMap]
  refine List.filterMap_congr fun e he => ?_
  have hget : pool.strings.get e.1 = some e.2 := SlotMap.get_eq_some.2 he
  cases hcol : e.2.color with
  | reachable => simp [StringEntry.swept, hcol, hget]
  | unmarked => simp [StringEntry.swept, hcol, hget]

end Dellingr.Interning
