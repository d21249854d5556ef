import Dellingr.Lib.Effect

/-!
# Two computations side by side

Two computations raising the same errors are related at two states when they end in the same way:
both with values, both with the same error, or neither with a value or an error (`rel`). What
holds of the values and of the states they end in is a relation for each way.

* `rel_bind` relates sequences from what relates their parts, and `rel_mono` weakens what is said;
* `Blind` computations neither read nor write the first component of their states: they relate
  to themselves whatever that component is (`Blind.rel`).

Computations that are charged for what they do may be stopped by a limit, each at a place of its
own. What they do otherwise is compared by `relUnless`: they end in the same way, unless one of them
is stopped. A step of one side alone is taken by `relUnless_left` or `relUnless_right`.
-/

namespace Effect

variable {σ τ υ ε α β γ δ : Type}

/-- Two computations end in the same way: with values and states related by `Q`, or with the
    same error and states related by `E`. -/
def rel (m : Effect σ ε α) (m' : Effect τ ε β) (Q : α → σ → β → τ → Prop) (E : σ → τ → Prop)
    (s : σ) (t : τ) : Prop :=
  match m s, m' t with
  | .ok a s', .ok b t' => Q a s' b t'
  | .fail e s', .fail e' t' => e = e' ∧ E s' t'
  | .panic, .panic | .timeout, .timeout => True
  | _, _ => False

/-! ## The rules -/

section Rules

variable {m : Effect σ ε α} {m' : Effect τ ε β} {f : α → Effect σ ε γ} {f' : β → Effect τ ε δ}
  {Q Q' : α → σ → β → τ → Prop} {R : γ → σ → δ → τ → Prop} {E E' : σ → τ → Prop} {s : σ} {t : τ}

theorem rel_pure {a : α} {b : β} (h : Q a s b t) :
    rel (pure a : Effect σ ε α) (pure b : Effect τ ε β) Q E s t := h

theorem rel_fail {e : ε} (h : E s t) :
    rel (fail e : Effect σ ε α) (fail e : Effect τ ε β) Q E s t := ⟨rfl, h⟩

theorem rel_panic : rel (panic : Effect σ ε α) (panic : Effect τ ε β) Q E s t := trivial

/-- One computation after another. -/
theorem rel_bind (h : rel m m' (fun a s b t => rel (f a) (f' b) R E s t) E s t) :
    rel (m >>= f) (m' >>= f') R E s t := by
  show rel (Effect.bind m f) (Effect.bind m' f') R E s t
  simp only [rel, Effect.bind] at h ⊢
  cases hm : m s <;> cases hm' : m' t <;> simp_all

/-- What is said of the outcomes may be weakened. -/
theorem rel_mono (h : rel m m' Q E s t) (hQ : ∀ a s' b t', Q a s' b t' → Q' a s' b t')
    (hE : ∀ s' t', E s' t' → E' s' t') : rel m m' Q' E' s t := by
  simp only [rel] at h ⊢
  cases hm : m s <;> cases hm' : m' t <;> simp only [hm, hm'] at h ⊢
  · exact hQ _ _ _ _ h
  · exact ⟨h.1, hE _ _ h.2⟩

/-- What is said of the values may be weakened. -/
theorem rel_mono_ok (h : rel m m' Q E s t) (hQ : ∀ a s' b t', Q a s' b t' → Q' a s' b t') :
    rel m m' Q' E s t := rel_mono h hQ fun _ _ => id

theorem rel_ite {p : Prop} [Decidable p] {n : Effect σ ε α} {n' : Effect τ ε β}
    (h : p → rel m m' Q E s t) (h' : ¬p → rel n n' Q E s t) :
    rel (if p then m else n) (if p then m' else n') Q E s t := by
  split
  · exact h ‹_›
  · exact h' ‹_›

theorem rel_get {Q : σ → σ → τ → τ → Prop} (h : Q s s t t) :
    rel (get : Effect σ ε σ) (get : Effect τ ε τ) Q E s t := h

theorem rel_modify {g : σ → σ} {g' : τ → τ} {Q : Unit → σ → Unit → τ → Prop}
    (h : Q () (g s) () (g' t)) :
    rel (modify g : Effect σ ε Unit) (modify g' : Effect τ ε Unit) Q E s t := h

/-- The state is changed first on the right. -/
theorem rel_modify_right {g : τ → τ} {n : Unit → Effect τ ε β} (h : rel m (n ()) Q E s (g t)) :
    rel m (modify g >>= n) Q E s t := h

/-- The same option on both sides is there on both, or on neither. -/
theorem rel_demand {o : Option α} {Q : α → σ → α → τ → Prop} (h : ∀ a, o = some a → Q a s a t) :
    rel (demand o : Effect σ ε α) (demand o : Effect τ ε α) Q E s t := by
  cases o with
  | none => exact rel_panic
  | some a => exact h a rfl

/-- The program relies on the same on both sides. -/
theorem rel_require {p q : Prop} [Decidable p] [Decidable q] (hpq : p ↔ q)
    {Q : Unit → σ → Unit → τ → Prop} (h : p → Q () s () t) :
    rel (require p : Effect σ ε Unit) (require q : Effect τ ε Unit) Q E s t := by
  by_cases hp : p
  · rw [require, require, if_pos hp, if_pos (hpq.1 hp)]
    exact h hp
  · rw [require, require, if_neg hp, if_neg fun hq => hp (hpq.2 hq)]
    exact rel_panic

/-- Computations with equal states end alike, from related runs that say so. -/
theorem eq_of_rel {m m' : Effect σ ε α} {t : σ}
    (h : rel m m' (fun a s b t => a = b ∧ s = t) Eq s t) : m s = m' t := by
  simp only [rel] at h
  cases hm : m s <;> cases hm' : m' t <;> simp_all

/-- Computations with variables of their own beside equal states. -/
theorem rel_withLocal {m : Effect (σ × υ) ε α} {m' : Effect (τ × υ) ε β} {u : υ}
    {Q : α × σ → υ → β × τ → υ → Prop} {E : υ → υ → Prop}
    (h : rel m m' (fun a s b t => Q (a, s.1) s.2 (b, t.1) t.2) (fun s t => E s.2 t.2) (s, u) (t, u)) :
    rel (withLocal s m) (withLocal t m') Q E u u := by
  simp only [rel, withLocal] at h ⊢
  cases hm : m (s, u) <;> cases hm' : m' (t, u) <;> simp_all

end Rules

/-! ## Computations beside a component -/

/-- A computation that neither reads nor writes the first component of its state. -/
def Blind (m : Effect (σ × υ) ε α) : Prop :=
  ∀ s s' u, rel m m (fun a t b t' => a = b ∧ t.1 = s ∧ t'.1 = s' ∧ t.2 = t'.2)
    (fun t t' => t.2 = t'.2) (s, u) (s', u)

section Blind

variable {m : Effect (σ × υ) ε α} {f : α → Effect (σ × υ) ε β}

theorem blind_pure {a : α} : Blind (pure a : Effect (σ × υ) ε α) := fun _ _ _ => ⟨rfl, rfl, rfl, rfl⟩

theorem blind_fail {e : ε} : Blind (fail e : Effect (σ × υ) ε α) := fun _ _ _ => ⟨rfl, rfl⟩

theorem blind_demand {o : Option α} : Blind (demand o : Effect (σ × υ) ε α) := by
  cases o with
  | none => exact fun _ _ _ => trivial
  | some a => exact blind_pure

/-- Read the second component. -/
theorem blind_get_bind {f : υ → Effect (σ × υ) ε α} (h : ∀ u, Blind (f u)) :
    Blind (get >>= fun s => f s.2) := fun s s' u => h u s s' u

theorem blind_modify {g : υ → υ} :
    Blind (modify fun (s, u) => (s, g u) : Effect (σ × υ) ε Unit) := fun _ _ _ => ⟨rfl, rfl, rfl, rfl⟩

theorem Blind.bind (h : Blind m) (hf : ∀ a, Blind (f a)) : Blind (m >>= f) := by
  intro s s' u
  refine rel_bind (rel_mono_ok (h s s' u) ?_)
  rintro a ⟨_, u⟩ _ ⟨_, _⟩ ⟨rfl, rfl, rfl, rfl⟩
  exact hf a _ _ u

theorem Blind.ite {p : Prop} [Decidable p] {m' : Effect (σ × υ) ε α} (h : Blind m)
    (h' : Blind m') : Blind (if p then m else m') := by
  split
  · exact h
  · exact h'

/-- A blind computation relates to itself. -/
theorem Blind.rel (h : Blind m) {s s' : σ} {u : υ} {Q : α → σ × υ → α → σ × υ → Prop}
    {E : σ × υ → σ × υ → Prop} (hQ : ∀ a u, Q a (s, u) a (s', u))
    (hE : ∀ t t', t.2 = t'.2 → E t t') : Effect.rel m m Q E (s, u) (s', u) := by
  refine rel_mono (h s s' u) ?_ hE
  rintro a ⟨_, u⟩ _ ⟨_, _⟩ ⟨rfl, rfl, rfl, rfl⟩
  exact hQ a u

end Blind

/-! ## Computations that may be stopped -/

/-- A computation fails with an error of the kind `S`. -/
def Stops (S : ε → σ → Prop) (m : Effect σ ε α) (s : σ) : Prop :=
  ∃ e s', m s = .fail e s' ∧ S e s'

/-- Two computations end with values and states related by `Q`, or with the same error, unless one
    of them is stopped. -/
def relUnless (S : ε → σ → Prop) (S' : ε → τ → Prop) (m : Effect σ ε α) (m' : Effect τ ε β)
    (Q : α → σ → β → τ → Prop) (s : σ) (t : τ) : Prop :=
  Stops S m s ∨ Stops S' m' t ∨
    match m s, m' t with
    | .ok a s', .ok b t' => Q a s' b t'
    | .fail e _, .fail e' _ => e = e'
    | _, _ => False

section Stops

variable {S : ε → σ → Prop} {S' : ε → τ → Prop} {m : Effect σ ε α} {m' : Effect τ ε β}
  {f : α → Effect σ ε γ} {f' : β → Effect τ ε δ} {Q : α → σ → β → τ → Prop}
  {R : γ → σ → δ → τ → Prop} {s s' : σ} {t t' : τ}

theorem Stops.bind (h : Stops S m s) : Stops S (m >>= f) s := by
  obtain ⟨e, s', hm, hS⟩ := h
  exact ⟨e, s', run_bind_of_fail hm, hS⟩

theorem relUnless_pure {a : α} {b : β} (h : Q a s b t) :
    relUnless S S' (pure a) (pure b) Q s t := .inr (.inr h)

theorem relUnless_fail {e : ε} :
    relUnless S S' (fail e : Effect σ ε α) (fail e : Effect τ ε β) Q s t := .inr (.inr rfl)

theorem relUnless_mono {S₁ : ε → σ → Prop} {S₁' : ε → τ → Prop} {Q' : α → σ → β → τ → Prop}
    (h : relUnless S S' m m' Q s t) (hS : ∀ e s', S e s' → S₁ e s')
    (hS' : ∀ e t', S' e t' → S₁' e t') (hQ : ∀ a s' b t', Q a s' b t' → Q' a s' b t') :
    relUnless S₁ S₁' m m' Q' s t := by
  rcases h with ⟨e, s', hm, he⟩ | ⟨e, t', hm, he⟩ | h
  · exact .inl ⟨e, s', hm, hS e s' he⟩
  · exact .inr (.inl ⟨e, t', hm, hS' e t' he⟩)
  · refine .inr (.inr ?_)
    cases hm : m s <;> cases hm' : m' t <;> simp only [hm, hm'] at h ⊢
    · exact hQ _ _ _ _ h
    · exact h

theorem relUnless_mono_ok {Q' : α → σ → β → τ → Prop} (h : relUnless S S' m m' Q s t)
    (hQ : ∀ a s' b t', Q a s' b t' → Q' a s' b t') : relUnless S S' m m' Q' s t :=
  relUnless_mono h (fun _ _ => id) (fun _ _ => id) hQ

/-- One computation after another. -/
theorem relUnless_bind (h : relUnless S S' m m' (fun a s b t => relUnless S S' (f a) (f' b) R s t) s t) :
    relUnless S S' (m >>= f) (m' >>= f') R s t := by
  rcases h with h | h | h
  · exact .inl h.bind
  · exact .inr (.inl h.bind)
  cases hm : m s with
  | ok a s' =>
    cases hm' : m' t with
    | ok b t' =>
      rw [hm, hm'] at h
      rw [relUnless, Stops, Stops, run_bind_of_ok hm, run_bind_of_ok hm']
      exact h
    | _ => simp only [hm, hm'] at h
  | fail e s' =>
    cases hm' : m' t with
    | fail e' t' =>
      simp only [hm, hm'] at h
      refine .inr (.inr ?_)
      rw [run_bind_of_fail hm, run_bind_of_fail hm']
      exact h
    | _ => simp only [hm, hm'] at h
  | panic => simp only [hm] at h
  | timeout => simp only [hm] at h

/-- The two sides may be exchanged. -/
theorem relUnless_symm (h : relUnless S' S m' m (fun b t a s => Q a s b t) t s) :
    relUnless S S' m m' Q s t := by
  rcases h with h | h | h
  · exact .inr (.inl h)
  · exact .inl h
  · refine .inr (.inr ?_)
    cases hm : m s <;> cases hm' : m' t <;> simp only [hm, hm'] at h ⊢
    · exact h
    · exact h.symm

/-- A step of the computation on the left. -/
theorem relUnless_left {n : Effect τ ε δ} {a : α} (hm : m s = .ok a s')
    (h : relUnless S S' (f a) n R s' t) : relUnless S S' (m >>= f) n R s t := by
  rw [relUnless, Stops, run_bind_of_ok hm]
  exact h

/-- A step of the computation on the right. -/
theorem relUnless_right {n : Effect σ ε γ} {b : β} (hm : m' t = .ok b t')
    (h : relUnless S S' n (f' b) R s t') : relUnless S S' n (m' >>= f') R s t := by
  rw [relUnless, Stops, Stops, run_bind_of_ok hm]
  exact h

theorem relUnless_get {f : σ → Effect σ ε γ} {f' : τ → Effect τ ε δ}
    (h : relUnless S S' (f s) (f' t) R s t) : relUnless S S' (get >>= f) (get >>= f') R s t := h

theorem relUnless_modify {g : σ → σ} {g' : τ → τ} {f : Unit → Effect σ ε γ}
    {f' : Unit → Effect τ ε δ} (h : relUnless S S' (f ()) (f' ()) R (g s) (g' t)) :
    relUnless S S' (modify g >>= f) (modify g' >>= f') R s t := h

/-- The computation on the left is stopped. -/
theorem relUnless_stopped_left {e : ε} (hm : m s = .fail e s') (hS : S e s') :
    relUnless S S' m m' Q s t := .inl ⟨e, s', hm, hS⟩

/-- The computation on the right is stopped. -/
theorem relUnless_stopped_right {e : ε} (hm : m' t = .fail e t') (hS : S' e t') :
    relUnless S S' m m' Q s t := .inr (.inl ⟨e, t', hm, hS⟩)

theorem relUnless_ite {p : Prop} [Decidable p] {n : Effect σ ε α} {n' : Effect τ ε β}
    (h : p → relUnless S S' m m' Q s t) (h' : ¬p → relUnless S S' n n' Q s t) :
    relUnless S S' (if p then m else n) (if p then m' else n') Q s t := by
  split
  · exact h ‹_›
  · exact h' ‹_›

/-! ### Computations that end -/

/-- A computation ends without a panic, and a value it gives satisfies `Q`. -/
def ends (m : Effect σ ε α) (Q : α → σ → Prop) (s : σ) : Prop :=
  match m s with
  | .ok a s' => Q a s'
  | .fail _ _ => True
  | .panic | .timeout => False

theorem ends_pure {a : α} {Q : α → σ → Prop} (h : Q a s) : ends (pure a : Effect σ ε α) Q s := h

theorem ends_bind {R : γ → σ → Prop} (h : ends m (fun a s => ends (f a) R s) s) : ends (m >>= f) R s := by
  rw [ends] at h ⊢
  cases hm : m s with
  | ok a s' =>
    rw [hm] at h
    rw [run_bind_of_ok hm]
    exact h
  | fail e s' =>
    rw [run_bind_of_fail hm]
    trivial
  | panic =>
    rw [hm] at h
    exact h.elim
  | timeout =>
    rw [hm] at h
    exact h.elim

theorem ends_mono {Q Q' : α → σ → Prop} (h : ends m Q s) (hQ : ∀ a s', Q a s' → Q' a s') :
    ends m Q' s := by
  rw [ends] at h ⊢
  cases hm : m s with
  | ok a s' =>
    rw [hm] at h
    exact hQ a s' h
  | fail e s' => trivial
  | panic =>
    rw [hm] at h
    exact h
  | timeout =>
    rw [hm] at h
    exact h

/-- A computation that is related to itself ends. -/
theorem ends_of_relUnless {S S' : ε → σ → Prop} {Q : α → σ → α → σ → Prop}
    (h : relUnless S S' m m Q s s) : ends m (fun a s => Q a s a s) s := by
  rw [ends]
  rcases h with ⟨e, s', hm, -⟩ | ⟨e, s', hm, -⟩ | h
  · rw [hm]
    trivial
  · rw [hm]
    trivial
  · cases hm : m s with
    | fail e s' => trivial
    | ok a s' =>
      rw [hm] at h
      exact h
    | panic =>
      rw [hm] at h
      exact h
    | timeout =>
      rw [hm] at h
      exact h

end Stops

end Effect
