import Mathlib.Data.List.Nodup
import Mathlib.Data.List.Basic

/-!
# Hash tables

A hash table of keys, each placed by a hash that the user of the table computes. The
table knows neither how keys are hashed nor how they are compared: a search is given a
hash and a test, and a table that grows asks for the hash of every key again.

Where a table keeps its entries depends on its history. A search tests the entries of
the given hash, in some order, and possibly others (`Probe`), until the test succeeds.

* `findEntry`, `find`: the first entry that the test accepts;
* `remove`: remove an entry;
* `rehash`: place all entries anew, asking for the hash of each key;
* `insertUnique`: add an entry, possibly after placing the others anew.
-/

/-- A table: its keys, each with the hash it is placed by. -/
structure HashTable (K : Type*) where
  entries : List (UInt64 × K)

namespace HashTable

variable {K : Type*}

/-- The entries that a search for a hash tests, in order: all those of the hash, and
    possibly others of the table. -/
structure Probe (K : Type*) where
  order : UInt64 → List (UInt64 × K) → List (UInt64 × K)
  mem : ∀ hash entries e, e ∈ order hash entries → e ∈ entries
  complete : ∀ hash entries e, e ∈ entries → e.1 = hash → e ∈ order hash entries

/-- The table without entries. -/
def empty : HashTable K := ⟨[]⟩

variable (t : HashTable K)

/-- The keys, in no particular order. -/
def keys : List K := t.entries.map Prod.snd

/-- The first entry tested that the test accepts. -/
def findEntry (P : Probe K) (hash : UInt64) (test : K → Bool) : Option (UInt64 × K) :=
  (P.order hash t.entries).find? fun e => test e.2

def find (P : Probe K) (hash : UInt64) (test : K → Bool) : Option K :=
  (t.findEntry P hash test).map Prod.snd

def remove [DecidableEq K] (e : UInt64 × K) : HashTable K := ⟨t.entries.erase e⟩

/-- Place all entries anew; `none` if a key has no hash. -/
def rehash (hasher : K → Option UInt64) : Option (HashTable K) :=
  (t.entries.mapM fun e => (hasher e.2).map fun hash => (hash, e.2)).map mk

/-- Add an entry, after placing the others anew if the table grows. -/
def insertUnique (hash : UInt64) (key : K) (hasher : K → Option UInt64) (grow : Bool) :
    Option (HashTable K) := do
  let t ← if grow then t.rehash hasher else some t
  some ⟨t.entries ++ [(hash, key)]⟩

variable {t} {P : Probe K} {hash : UInt64} {test : K → Bool} {hasher : K → Option UInt64}
  {e : UInt64 × K}

theorem of_findEntry (h : t.findEntry P hash test = some e) : e ∈ t.entries ∧ test e.2 = true := by
  have htest := List.find?_some h
  exact ⟨P.mem _ _ _ (List.mem_of_find?_eq_some h), htest⟩

/-- The only entry that a test accepts is found by its hash. -/
theorem findEntry_of_unique (hmem : e ∈ t.entries) (hhash : e.1 = hash) (htest : test e.2 = true)
    (hunique : ∀ e' ∈ t.entries, test e'.2 = true → e' = e) : t.findEntry P hash test = some e := by
  obtain ⟨e', he'⟩ : ∃ e', t.findEntry P hash test = some e' := by
    rw [findEntry, ← Option.isSome_iff_exists, List.find?_isSome]
    exact ⟨e, P.complete _ _ _ hmem hhash, htest⟩
  obtain ⟨hmem', htest'⟩ := of_findEntry he'
  rw [he', hunique e' hmem' htest']

/-- Nothing moves while every key has the hash it is placed by. -/
theorem rehash_eq_some (h : ∀ e ∈ t.entries, hasher e.2 = some e.1) : t.rehash hasher = some t := by
  suffices hmap : t.entries.mapM (fun e => (hasher e.2).map fun hash => (hash, e.2)) = some t.entries by
    rw [rehash, hmap]
    rfl
  obtain ⟨entries⟩ := t
  induction entries with
  | nil => rfl
  | cons e entries ih =>
    obtain ⟨he, hentries⟩ := List.forall_mem_cons.1 h
    rw [List.mapM_cons, he, ih hentries]
    rfl

theorem insertUnique_eq_some (h : ∀ e ∈ t.entries, hasher e.2 = some e.1) (key : K) (grow : Bool) :
    t.insertUnique hash key hasher grow = some ⟨t.entries ++ [(hash, key)]⟩ := by
  rw [insertUnique, rehash_eq_some h, ite_self]
  rfl

end HashTable
