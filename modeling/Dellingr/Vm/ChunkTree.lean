import Dellingr.Vm.Collector

/-!
# Retaining bytecodes

The runtimes that stay are those of whole trees of bytecodes. Retaining a tree stops at
a bytecode that is retained already (`retainBytecodeTree`), which is right as long as
everything retained was retained with its nested functions (`Full`). An identity
is the address of a bytecode, so among the bytecodes that are held at one time it
determines the bytecode (`Coherent`).
-/

namespace Dellingr

/-- A bytecode is another one, or nested in it. -/
inductive Chunk.Within : Chunk → Chunk → Prop
  | refl (c : Chunk) : Within c c
  | nested {c d e : Chunk} : d ∈ c.nested → Within e d → Within e c

namespace Chunk

variable {c d e : Chunk}

theorem Within.trans (h : e.Within d) (h' : d.Within c) : e.Within c := by
  induction h' with
  | refl => exact h
  | nested hm _ ih => exact .nested hm (ih h)

theorem sizeOf_nested (h : d ∈ c.nested) : sizeOf d < sizeOf c := by
  have := List.sizeOf_lt_of_mem h
  cases c
  simp only [mk.sizeOf_spec] at this ⊢
  omega

theorem Within.sizeOf_le (h : d.Within c) : sizeOf d ≤ sizeOf c := by
  induction h with
  | refl => exact Nat.le_refl _
  | nested hm _ ih => exact ih.trans (sizeOf_nested hm).le

end Chunk

/-- Bytecodes held at one time: their nested functions are held as well, and their
    addresses differ. -/
structure Coherent (held : Chunk → Prop) : Prop where
  within : ∀ c d, held c → d.Within c → held d
  identity : ∀ c d, held c → held d → c.identity = d.identity → c = d

/-- The addresses of the bytecodes of a tree are retained. -/
def Covers (live : Finset Nat) (c : Chunk) : Prop := ∀ d : Chunk, d.Within c → d.identity ∈ live

/-- Each held bytecode that is retained is retained with its nested functions. -/
def Full (held : Chunk → Prop) (live : Finset Nat) : Prop :=
  ∀ c, held c → c.identity ∈ live → Covers live c

/-- An address of a tree. -/
def InTree (i : Nat) (c : Chunk) : Prop := ∃ d : Chunk, d.Within c ∧ d.identity = i

variable {held : Chunk → Prop} {live : Finset Nat} {i : Nat}

theorem inTree_nested {identity g f s t : Nat} {lits : List (List UInt8)} {us : List UpvalueDesc}
    {nested : List Chunk} : InTree i (.mk identity lits g f s t us nested) ↔
      i = identity ∨ ∃ c ∈ nested, InTree i c := by
  constructor
  · rintro ⟨d, hd, rfl⟩
    cases hd with
    | refl => exact .inl rfl
    | nested hm hd => exact .inr ⟨_, hm, d, hd, rfl⟩
  · rintro (rfl | ⟨c, hc, d, hd, rfl⟩)
    · exact ⟨_, .refl _, rfl⟩
    · exact ⟨d, .nested hc hd, rfl⟩

mutual

/-- Retaining a tree adds its addresses, if what is retained of it already has
    its nested functions retained. -/
theorem mem_retainBytecodeTree {live : Finset Nat} (hheld : Coherent held) (c : Chunk) (hc : held c)
    (hfull : ∀ d, d.Within c → d.identity ∈ live → Covers live d) :
    ∀ i, i ∈ retainBytecodeTree live c ↔ i ∈ live ∨ InTree i c := by
  match c with
  | .mk identity lits g f s t us nested =>
    intro i
    rw [retainBytecodeTree]
    split
    · rename_i hmem
      refine ⟨.inl, ?_⟩
      rintro (hi | ⟨d, hd, rfl⟩)
      · exact hi
      · exact hfull _ (.refl _) hmem d hd
    · have hcovers : ∀ c ∈ nested, ∀ d, d.Within c → d.identity ∈ insert identity live →
          Covers (insert identity live) d := by
        intro c' hc' d hd hmem
        rcases Finset.mem_insert.1 hmem with hi | hi
        · -- A nested function is smaller, so it is not the bytecode itself.
          have hd' : held d := hheld.within _ _ hc (.nested hc' hd)
          have heq := hheld.identity d _ hd' hc hi
          have hlt := Chunk.sizeOf_nested (c := .mk identity lits g f s t us nested) hc'
          have hle := hd.sizeOf_le
          rw [heq] at hle
          omega
        · exact fun e he => Finset.mem_insert_of_mem (hfull d (.nested hc' hd) hi e he)
      rw [mem_retainBytecodeTrees hheld nested
        (fun d hd => hheld.within _ _ hc (.nested hd (.refl d))) hcovers, Finset.mem_insert,
        inTree_nested]
      tauto

theorem mem_retainBytecodeTrees {live : Finset Nat} (hheld : Coherent held) (cs : List Chunk)
    (hcs : ∀ c ∈ cs, held c)
    (hfull : ∀ c ∈ cs, ∀ d, d.Within c → d.identity ∈ live → Covers live d) :
    ∀ i, i ∈ retainBytecodeTrees live cs ↔ i ∈ live ∨ ∃ c ∈ cs, InTree i c := by
  match cs with
  | [] => simp [retainBytecodeTrees]
  | c :: cs =>
    intro i
    have hc := hcs c List.mem_cons_self
    have hmem := mem_retainBytecodeTree hheld c hc (hfull c List.mem_cons_self)
    rw [retainBytecodeTrees, mem_retainBytecodeTrees hheld cs
      (fun d hd => hcs d (List.mem_cons_of_mem _ hd)), hmem]
    · simp only [List.mem_cons, exists_eq_or_imp]
      tauto
    · intro c' hc' d hd hi e he
      rcases (hmem _).1 hi with hi | ⟨d', hd', heq⟩
      · exact (hmem _).2 (.inl (hfull c' (List.mem_cons_of_mem _ hc') d hd hi e he))
      · -- The tree of the first one has this bytecode.
        have hd₁ := hheld.within _ _ (hcs c' (List.mem_cons_of_mem _ hc')) hd
        rw [hheld.identity _ _ (hheld.within _ _ hc hd') hd₁ heq] at hd'
        exact (hmem _).2 (.inr ⟨e, he.trans hd', rfl⟩)

end

/-- Retaining a tree when everything retained is retained with its nested functions. -/
theorem full_retainBytecodeTree (hheld : Coherent held) {c : Chunk} (hc : held c)
    (hfull : Full held live) : Full held (retainBytecodeTree live c) ∧
      ∀ i, i ∈ retainBytecodeTree live c ↔ i ∈ live ∨ InTree i c := by
  have hmem := mem_retainBytecodeTree hheld c hc fun d hd => hfull d (hheld.within _ _ hc hd)
  refine ⟨fun d hd hi e he => ?_, hmem⟩
  rcases (hmem _).1 hi with hi | ⟨d', hd', heq⟩
  · exact (hmem _).2 (.inl (hfull d hd hi e he))
  · rw [hheld.identity _ _ (hheld.within _ _ hc hd') hd heq] at hd'
    exact (hmem _).2 (.inr ⟨e, he.trans hd', rfl⟩)

theorem full_empty : Full held ∅ := fun _ _ h => absurd h (Finset.notMem_empty _)

end Dellingr
