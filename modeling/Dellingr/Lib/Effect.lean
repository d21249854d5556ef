/-!
# Computations that may fail or panic

A computation over a state ends in one of four ways (`Outcome`): with a value,
with an error, which it raises as a value and which leaves a state behind, with
a panic, which is a bug and leaves nothing, or not at all within the steps it
was given.

What a computation does is said by its weakest precondition (`Effect.wp`): the
states from which it does not panic, gives a value satisfying `Q` if it gives
one and leaves a state satisfying `E` if it raises an error.

* `wp_bind`, `wp_pure`, `wp_get` and so on compute it, and are `simp` lemmas;
* `wp_mono` weakens what is said of the outcome;
* `wp_attempt` turns a raised error into a value.

The liberal precondition (`Effect.wlp`) has the same rules and says nothing of panics.
-/

/-- How a computation ends: with a value, with an error, with a panic, or not
    within its bound. -/
inductive Outcome (σ ε α : Type)
  | ok (a : α) (s : σ)
  | fail (e : ε) (s : σ)
  | panic
  | timeout

/-- A computation over the states `σ`, raising the errors `ε`. -/
def Effect (σ ε α : Type) : Type := σ → Outcome σ ε α

namespace Effect

variable {σ ε α β : Type}

/-- The computation that gives `a`. -/
protected def pure (a : α) : Effect σ ε α := fun s => .ok a s

/-- One computation after another. -/
protected def bind (m : Effect σ ε α) (f : α → Effect σ ε β) : Effect σ ε β := fun s =>
  match m s with
  | .ok a s' => f a s'
  | .fail e s' => .fail e s'
  | .panic => .panic
  | .timeout => .timeout

instance : Monad (Effect σ ε) where
  pure := Effect.pure
  bind := Effect.bind

theorem id_map_eq (m : Effect σ ε α) : id <$> m = m := by
  funext s
  show Effect.bind m Effect.pure s = m s
  rw [Effect.bind]
  cases m s <;> rfl

theorem bind_bind {γ : Type} (m : Effect σ ε α) (f : α → Effect σ ε β) (g : β → Effect σ ε γ) :
    m >>= f >>= g = m >>= fun a => f a >>= g := by
  funext s
  show Effect.bind (Effect.bind m f) g s = Effect.bind m (fun a => Effect.bind (f a) g) s
  simp only [Effect.bind]
  cases m s <;> rfl

instance : LawfulMonad (Effect σ ε) :=
  LawfulMonad.mk' (Effect σ ε) id_map_eq (fun _ _ => rfl) bind_bind

/-- The state. -/
def get : Effect σ ε σ := fun s => .ok s s

/-- Change the state. -/
def modify (f : σ → σ) : Effect σ ε Unit := fun s => .ok () (f s)

/-- Raise an error. -/
def fail (e : ε) : Effect σ ε α := fun s => .fail e s

/-- A bug. -/
def panic : Effect σ ε α := fun _ => .panic

/-- The end of the bound. -/
def timeout : Effect σ ε α := fun _ => .timeout

/-- The value of an option, which the program relies on being there. -/
def demand : Option α → Effect σ ε α
  | some a => Pure.pure a
  | none => panic

/-- What the program relies on. -/
def require (p : Prop) [Decidable p] : Effect σ ε Unit := if p then Pure.pure () else panic

/-- The result of a fallible function. -/
def liftExcept : Except ε α → Effect σ ε α
  | .ok a => Pure.pure a
  | .error e => fail e

/-- Run a computation and give the error it raises as a value. -/
def attempt (m : Effect σ ε α) : Effect σ ε (Except ε α) := fun s =>
  match m s with
  | .ok a s' => .ok (.ok a) s'
  | .fail e s' => .ok (.error e) s'
  | .panic => .panic
  | .timeout => .timeout

/-- Run a computation with a variable of its own beside the state. -/
def withLocal {τ : Type} (t : τ) (m : Effect (τ × σ) ε α) : Effect σ ε (α × τ) := fun s =>
  match m (t, s) with
  | .ok a (t', s') => .ok (a, t') s'
  | .fail e (_, s') => .fail e s'
  | .panic => .panic
  | .timeout => .timeout

/-- The weakest precondition: the states from which the computation does not
    panic, gives only values satisfying `Q` and raises only errors satisfying
    `E`. -/
def wp (m : Effect σ ε α) (Q : α → σ → Prop) (E : ε → σ → Prop) (s : σ) : Prop :=
  match m s with
  | .ok a s' => Q a s'
  | .fail e s' => E e s'
  | .panic => False
  | .timeout => True

/-! ## The rules -/

section Rules

variable {m : Effect σ ε α} {f : α → Effect σ ε β} {Q Q' : α → σ → Prop} {R : β → σ → Prop}
  {E E' : ε → σ → Prop} {s : σ}

@[simp] theorem wp_pure {a : α} : wp (Pure.pure a) Q E = Q a := rfl

@[simp] theorem wp_bind : wp (m >>= f) R E = wp m (fun a => wp (f a) R E) E := by
  funext s
  simp only [wp, Bind.bind, Effect.bind]
  cases m s <;> rfl

@[simp] theorem wp_map {g : α → β} : wp (g <$> m) R E = wp m (fun a => R (g a)) E := by
  show wp (m >>= fun a => Pure.pure (g a)) R E = _
  rw [wp_bind]
  rfl

@[simp] theorem wp_get {Q : σ → σ → Prop} : wp (get : Effect σ ε σ) Q E = fun s => Q s s := rfl

@[simp] theorem wp_modify {g : σ → σ} {Q : Unit → σ → Prop} :
    wp (modify g : Effect σ ε Unit) Q E = fun s => Q () (g s) := rfl

@[simp] theorem wp_fail {e : ε} : wp (fail e) Q E = E e := rfl

@[simp] theorem wp_panic : wp (panic : Effect σ ε α) Q E = fun _ => False := rfl

@[simp] theorem wp_timeout : wp (timeout : Effect σ ε α) Q E = fun _ => True := rfl

@[simp] theorem wp_demand_some {a : α} : wp (demand (some a)) Q E = Q a := rfl

/-- What the program demands is there. -/
theorem wp_demand {o : Option α} {a : α} (h : o = some a) :
    wp (demand o) Q E = Q a := by
  rw [h]
  rfl

theorem wp_require {p : Prop} [Decidable p] (h : p) {Q : Unit → σ → Prop} :
    wp (require p : Effect σ ε Unit) Q E = Q () := by
  rw [require, if_pos h]
  rfl

@[simp] theorem wp_liftExcept {r : Except ε α} :
    wp (liftExcept r) Q E s ↔ (∀ a, r = .ok a → Q a s) ∧ ∀ e, r = .error e → E e s := by
  cases r with
  | ok a => simp [liftExcept]
  | error e => simp [liftExcept]

@[simp] theorem wp_attempt {Q : Except ε α → σ → Prop} :
    wp m.attempt Q E = wp m (fun a => Q (.ok a)) (fun e => Q (.error e)) := by
  funext s
  simp only [wp, attempt]
  cases m s <;> rfl

@[simp] theorem wp_withLocal {τ : Type} {t : τ} {m : Effect (τ × σ) ε α} {Q : α × τ → σ → Prop} :
    wp (withLocal t m) Q E =
      fun s => wp m (fun a s' => Q (a, s'.1) s'.2) (fun e s' => E e s'.2) (t, s) := by
  funext s
  simp only [wp, withLocal]
  cases m (t, s) <;> rfl

/-- What is said of the outcome may be weakened. -/
theorem wp_mono (h : wp m Q E s) (hQ : ∀ a s', Q a s' → Q' a s')
    (hE : ∀ e s', E e s' → E' e s') : wp m Q' E' s := by
  simp only [wp] at h ⊢
  cases hm : m s with
  | ok a s' => exact hQ a s' (by simpa [hm] using h)
  | fail e s' => exact hE e s' (by simpa [hm] using h)
  | panic => simp [hm] at h
  | timeout => trivial

/-- The value a judged computation gives. -/
theorem wp.ok (h : wp m Q E s) {a : α} {s' : σ} (hm : m s = .ok a s') : Q a s' := by
  rwa [wp, hm] at h

/-- The error a judged computation raises. -/
theorem wp.error (h : wp m Q E s) {e : ε} {s' : σ} (hm : m s = .fail e s') : E e s' := by
  rwa [wp, hm] at h

/-- What is said of the value may be weakened. -/
theorem wp_mono_ok (h : wp m Q E s) (hQ : ∀ a s', Q a s' → Q' a s') : wp m Q' E s :=
  wp_mono h hQ fun _ _ => id

/-- A conditional is judged branch by branch. -/
theorem wp_ite {p : Prop} [Decidable p] {m' : Effect σ ε α} (h : p → wp m Q E s)
    (h' : ¬p → wp m' Q E s) : wp (if p then m else m') Q E s := by
  split
  · exact h ‹_›
  · exact h' ‹_›

/-- A computation for each element of a list, each of which keeps an invariant and gives
    values with a property. -/
theorem wp_mapM {γ : Type} {l : List γ} {g : γ → Effect σ ε β} {P : β → Prop} {I : σ → Prop}
    (h : ∀ a ∈ l, ∀ s, I s → wp (g a) (fun b s' => P b ∧ I s') E s) (hs : I s) :
    wp (l.mapM g) (fun bs s' => bs.length = l.length ∧ (∀ b ∈ bs, P b) ∧ I s') E s := by
  induction l generalizing s with
  | nil => exact ⟨rfl, by simp, hs⟩
  | cons a l ih =>
    rw [List.mapM_cons, wp_bind]
    refine wp_mono_ok (h a List.mem_cons_self s hs) fun b s' hb => ?_
    rw [wp_bind]
    refine wp_mono_ok (ih (fun a ha => h a (List.mem_cons_of_mem _ ha)) hb.2) fun bs s'' hbs => ?_
    obtain ⟨hlen, hall, hI⟩ := hbs
    refine ⟨by simpa using hlen, fun b' hb' => ?_, hI⟩
    rcases List.mem_cons.1 hb' with rfl | hmem
    · exact hb.1
    · exact hall b' hmem

end Rules

/-! ## The values given -/

/-- Every value a computation gives, from whatever state, satisfies `Q`; nothing is
    said of errors and panics. -/
def Yields (m : Effect σ ε α) (Q : α → Prop) : Prop := ∀ s a s', m s = .ok a s' → Q a

section Yields

variable {m : Effect σ ε α} {f : α → Effect σ ε β} {Q : α → Prop} {R : β → Prop} {s s' : σ}

theorem yields_pure {a : α} (h : Q a) : Yields (Pure.pure a : Effect σ ε α) Q := by
  rintro s _ _ ⟨⟩
  exact h

theorem Yields.mono {Q' : α → Prop} (h : Yields m Q) (hQ : ∀ a, Q a → Q' a) : Yields m Q' :=
  fun s a s' hrun => hQ a (h s a s' hrun)

theorem yields_fail {e : ε} : Yields (fail e : Effect σ ε α) Q := nofun

theorem run_pure_eq_ok {a b : α} :
    (Pure.pure b : Effect σ ε α) s = .ok a s' ↔ b = a ∧ s = s' := by
  show Outcome.ok b s = _ ↔ _
  rw [Outcome.ok.injEq]

theorem run_fail_ne_ok {e : ε} {a : α} : (fail e : Effect σ ε α) s ≠ .ok a s' := nofun

theorem run_get_bind {f : σ → Effect σ ε β} : (get >>= f) s = f s s := rfl

theorem run_demand_eq_ok {o : Option α} {a : α} :
    (demand o : Effect σ ε α) s = .ok a s' ↔ o = some a ∧ s = s' := by
  cases o with
  | none => exact ⟨nofun, fun h => nomatch h.1⟩
  | some b => simp only [demand, run_pure_eq_ok, Option.some.injEq]

/-- A run of one computation after another that gives a value is a run of each. -/
theorem run_bind_eq_ok {b : β} :
    (m >>= f) s = .ok b s' ↔ ∃ a s₁, m s = .ok a s₁ ∧ f a s₁ = .ok b s' := by
  show Effect.bind m f s = _ ↔ _
  rw [Effect.bind]
  cases m s with
  | ok a s₁ => exact ⟨fun h => ⟨a, s₁, rfl, h⟩, by rintro ⟨_, _, ⟨⟩, h⟩; exact h⟩
  | _ => simp

theorem run_bind_of_ok {a : α} {s₁ : σ} (h : m s = .ok a s₁) : (m >>= f) s = f a s₁ := by
  show Effect.bind m f s = _
  rw [Effect.bind, h]

theorem run_bind_of_fail {e : ε} {s₁ : σ} (h : m s = .fail e s₁) : (m >>= f) s = .fail e s₁ := by
  show Effect.bind m f s = _
  rw [Effect.bind, h]

theorem run_bind_of_panic (h : m s = .panic) : (m >>= f) s = .panic := by
  show Effect.bind m f s = _
  rw [Effect.bind, h]

theorem run_bind_of_timeout (h : m s = .timeout) : (m >>= f) s = .timeout := by
  show Effect.bind m f s = _
  rw [Effect.bind, h]

/-- What is run first may give anything. -/
theorem yields_bind (h : ∀ a, Yields (f a) R) : Yields (m >>= f) R := by
  intro s b s' hrun
  obtain ⟨a, s₁, -, hf⟩ := run_bind_eq_ok.1 hrun
  exact h a s₁ b s' hf

/-- What is run first gives what the rest relies on. -/
theorem yields_bind_of (hm : Yields m Q) (h : ∀ a, Q a → Yields (f a) R) :
    Yields (m >>= f) R := by
  intro s b s' hrun
  obtain ⟨a, s₁, hrun₁, hf⟩ := run_bind_eq_ok.1 hrun
  exact h a (hm s a s₁ hrun₁) s₁ b s' hf

end Yields

/-! ## Computations that end -/

/-- A computation that ends, from whatever state. -/
def Settles (m : Effect σ ε α) : Prop := ∀ s, m s ≠ .timeout

section Settles

variable {m m' : Effect σ ε α} {f : α → Effect σ ε β}

@[simp] theorem settles_pure {a : α} : Settles (Pure.pure a : Effect σ ε α) := fun _ => nofun

@[simp] theorem settles_fail {e : ε} : Settles (fail e : Effect σ ε α) := fun _ => nofun

@[simp] theorem settles_panic : Settles (panic : Effect σ ε α) := fun _ => nofun

@[simp] theorem settles_get : Settles (get : Effect σ ε σ) := fun _ => nofun

@[simp] theorem settles_modify {g : σ → σ} : Settles (modify g : Effect σ ε Unit) := fun _ => nofun

@[simp] theorem settles_demand {o : Option α} : Settles (demand o : Effect σ ε α) := by
  cases o with
  | none => exact settles_panic
  | some a => exact settles_pure

@[simp] theorem settles_require {p : Prop} [Decidable p] :
    Settles (require p : Effect σ ε Unit) := by
  rw [require]
  split
  · exact settles_pure
  · exact settles_panic

theorem Settles.bind (h : Settles m) (hf : ∀ a, Settles (f a)) : Settles (m >>= f) := by
  intro s
  show Effect.bind m f s ≠ _
  rw [Effect.bind]
  cases hm : m s with
  | ok a s' => exact hf a s'
  | fail e s' => nofun
  | panic => nofun
  | timeout => exact absurd hm (h s)

theorem Settles.ite {p : Prop} [Decidable p] (h : Settles m) (h' : Settles m') :
    Settles (if p then m else m') := by
  split
  · exact h
  · exact h'

theorem Settles.withLocal {τ : Type} {t : τ} {m : Effect (τ × σ) ε α} (h : Settles m) :
    Settles (withLocal t m) := by
  intro s
  rw [Effect.withLocal]
  cases hm : m (t, s) with
  | timeout => exact absurd hm (h (t, s))
  | _ => nofun

end Settles

/-! ## Runs that may panic -/

/-- The states from which a computation gives only values satisfying `Q` and raises only
    errors satisfying `E`; it may panic. -/
def wlp (m : Effect σ ε α) (Q : α → σ → Prop) (E : ε → σ → Prop) (s : σ) : Prop :=
  match m s with
  | .ok a s' => Q a s'
  | .fail e s' => E e s'
  | .panic | .timeout => True

section Liberal

variable {m : Effect σ ε α} {f : α → Effect σ ε β} {Q Q' : α → σ → Prop} {R : β → σ → Prop}
  {E E' : ε → σ → Prop} {s : σ}

@[simp] theorem wlp_pure {a : α} : wlp (Pure.pure a) Q E = Q a := rfl

@[simp] theorem wlp_bind : wlp (m >>= f) R E = wlp m (fun a => wlp (f a) R E) E := by
  funext s
  simp only [wlp, Bind.bind, Effect.bind]
  cases m s <;> rfl

@[simp] theorem wlp_get {Q : σ → σ → Prop} : wlp (get : Effect σ ε σ) Q E = fun s => Q s s := rfl

@[simp] theorem wlp_modify {g : σ → σ} {Q : Unit → σ → Prop} :
    wlp (modify g : Effect σ ε Unit) Q E = fun s => Q () (g s) := rfl

@[simp] theorem wlp_fail {e : ε} : wlp (fail e) Q E = E e := rfl

@[simp] theorem wlp_demand {o : Option α} : wlp (demand o) Q E s ↔ ∀ a, o = some a → Q a s := by
  cases o with
  | none => exact ⟨nofun, fun _ => trivial⟩
  | some a => simp [demand]

@[simp] theorem wlp_liftExcept {r : Except ε α} :
    wlp (liftExcept r) Q E s ↔ (∀ a, r = .ok a → Q a s) ∧ ∀ e, r = .error e → E e s := by
  cases r with
  | ok a => simp [liftExcept]
  | error e => simp [liftExcept]

@[simp] theorem wlp_attempt {Q : Except ε α → σ → Prop} :
    wlp m.attempt Q E = wlp m (fun a => Q (.ok a)) (fun e => Q (.error e)) := by
  funext s
  simp only [wlp, attempt]
  cases m s <;> rfl

theorem wlp_mono (h : wlp m Q E s) (hQ : ∀ a s', Q a s' → Q' a s')
    (hE : ∀ e s', E e s' → E' e s') : wlp m Q' E' s := by
  simp only [wlp] at h ⊢
  cases hm : m s with
  | ok a s' => exact hQ a s' (by simpa [hm] using h)
  | fail e s' => exact hE e s' (by simpa [hm] using h)
  | panic => trivial
  | timeout => trivial

theorem wlp_ite {p : Prop} [Decidable p] {m' : Effect σ ε α} (h : p → wlp m Q E s)
    (h' : ¬p → wlp m' Q E s) : wlp (if p then m else m') Q E s := by
  split
  · exact h ‹_›
  · exact h' ‹_›

/-- A computation for each element of a list, each of which keeps an invariant. -/
theorem wlp_mapM {γ : Type} {l : List γ} {g : γ → Effect σ ε β} {I : σ → Prop}
    (h : ∀ a ∈ l, ∀ s, I s → wlp (g a) (fun _ s' => I s') E s) (hs : I s) :
    wlp (l.mapM g) (fun _ s' => I s') E s := by
  induction l generalizing s with
  | nil => exact hs
  | cons a l ih =>
    rw [List.mapM_cons, wlp_bind]
    refine wlp_mono (h a List.mem_cons_self s hs) (fun b s' hb => ?_) fun _ _ => id
    rw [wlp_bind]
    exact wlp_mono (ih (fun a ha => h a (List.mem_cons_of_mem _ ha)) hb) (fun _ _ => id) fun _ _ => id

end Liberal

end Effect
