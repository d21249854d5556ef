import Dellingr.Vm.GlobalEnvSound

/-!
# Restricted environments

`restrict` swaps the contents of the global table for the whitelisted globals, under
live caches and a live mirror, and `resume` swaps them back. Pairs of the two nest, last
in first out, with any operations in between.

* `Within g g'`: a run between a restriction and its end, the pairs inside it matched;
* `Within.suspended`: such a run leaves the suspended environments as they are;
* `restricted_env_isolated`: what is read right after a restriction, and after its end.
-/

namespace Dellingr

open Stamp

namespace GlobalEnv

variable {g g₁ g₂ g₃ : GlobalEnv} {A : Allocator} {key : StringPtr}

/-- The environments that arise from the empty one. -/
def Reached (A : Allocator) (P : GlobalEnv → GlobalOp → Prop) (g : GlobalEnv) : Prop :=
  ∃ ops vs, Admissible A P .new ops ∧ run A .new ops = some (vs, g)

theorem Reached.sound (h : Reached A (GlobalEnv.Steady A) g) : g.Sound := by
  obtain ⟨ops, vs, hops, hrun⟩ := h
  obtain ⟨_, g', _, hg, -, -, hs, -⟩ := run_agrees new_sound (.refl _) hops
  rw [hrun] at hg
  cases hg
  exact hs

/-- A run that ends what it restricts, and nothing else. -/
inductive Within (A : Allocator) (P : GlobalEnv → GlobalOp → Prop) : GlobalEnv → GlobalEnv → Prop
  | refl (g : GlobalEnv) : Within A P g g
  | op {g g₁ g₂ : GlobalEnv} {op : GlobalOp} {v : Val} (h : Within A P g g₁) (hop : ¬op.IsSwap)
    (ha : g₁.Admits op) (hp : P g₁ op) (hs : g₁.step A op = some (v, g₂)) : Within A P g g₂
  | nested {g g₁ g₂ g₃ g₄ : GlobalEnv} {whitelist : List (List UInt8)} (h : Within A P g g₁)
    (hp : P g₁ (.restrict whitelist)) (hs : g₁.restrict A whitelist = some g₂)
    (hin : Within A P g₂ g₃) (hp' : P g₃ .resume) (hr : g₃.resume = some g₄) : Within A P g g₄

/-- What a restriction leaves behind. -/
theorem restrict_spec (h : g.Sound) {whitelist : List (List UInt8)}
    (hst : g.Steady A (.restrict whitelist)) :
    ∃ t g', g.restrict A whitelist = some g' ∧ g.Brings whitelist t ∧ g'.Sound ∧
      g' = { g.touch (g.table.swapContents t).1 with
        phase := .sealed, suspendedEnvs := ⟨g.table, g.phase⟩ :: g.suspendedEnvs } := by
  obtain ⟨t, g', _, -, hb, hg, -, -, hg', hsound⟩ := restrict_agrees h (.refl g) A whitelist
  have hstep : g.step A (.restrict whitelist) = some (.nil, g') := congrArg (Option.map (Val.nil, ·)) hg
  obtain ⟨hv, he⟩ := hst.1 _ _ hstep
  exact ⟨t, g', hg, hb, hsound hv he, hg'⟩

/-- Resuming gives back the environment suspended last. -/
theorem resume_spec (h : g.Sound) {env : SuspendedEnv} {rest : List SuspendedEnv}
    (hs : g.suspendedEnvs = env :: rest) (hst : g.Steady A .resume) :
    ∃ g', g.resume = some g' ∧ g'.Sound ∧
      g' = { g.touch (g.table.swapContents env.contents).1 with
        phase := env.phase, suspendedEnvs := rest } := by
  have hres : g.resume = some { g.touch (g.table.swapContents env.contents).1 with
      phase := env.phase, suspendedEnvs := rest } := by rw [resume, hs]
  have hadm : g.Admits .resume := by simp [Admits, hs]
  obtain ⟨v, g', _, hg, -, -, -, -, hsound⟩ := step_spec h hadm (.refl g) A
  have hstep := congrArg (Option.map (Val.nil, ·)) hres
  have heq := hg.symm.trans hstep
  cases heq
  exact ⟨_, hres, hsound hst, rfl⟩

/-- A run that ends what it restricts leaves the suspended environments alone. -/
theorem Within.suspended (hw : Within A (GlobalEnv.Steady A) g g₁) (h : g.Sound) :
    g₁.Sound ∧ g₁.suspendedEnvs = g.suspendedEnvs ∧ g₁.builtinNames = g.builtinNames := by
  induction hw with
  | refl => exact ⟨h, rfl, rfl⟩
  | op _ hop ha hp hs ih =>
    obtain ⟨hs₁, henvs, hnames⟩ := ih h
    obtain ⟨v, g', _, hg, -, -, hnames', hkeep, hsound⟩ := step_spec hs₁ ha (.refl _) A
    rw [hs] at hg
    cases hg
    exact ⟨hsound hp, (hkeep hop).trans henvs, hnames'.trans hnames⟩
  | nested _ hp hs _ hp' hr ih ih' =>
    obtain ⟨hs₁, henvs, hnames⟩ := ih h
    obtain ⟨t, g', hg, -, hs₂, hg'⟩ := restrict_spec hs₁ hp
    rw [hs] at hg
    cases hg
    obtain ⟨hs₃, henvs₃, hnames₃⟩ := ih' hs₂
    rw [hg'] at henvs₃ hnames₃
    obtain ⟨g'', hg'', hs₄, heq⟩ := resume_spec hs₃ henvs₃ hp'
    rw [hr] at hg''
    cases hg''
    exact ⟨hs₄, heq ▸ henvs, heq ▸ hnames₃.trans hnames⟩

/-- Of a string of the pool, whether its handle is brought along depends on its bytes. -/
theorem brought_iff {bytes : List UInt8} {whitelist : List (List UInt8)}
    (hk : g.strings.get key = some bytes) :
    (∃ name ∈ whitelist, g.strings.find name = some key) ↔ bytes ∈ whitelist := by
  constructor
  · rintro ⟨name, hm, hf⟩
    rw [StringPool.find_eq_some, hk] at hf
    cases hf
    exact hm
  · exact fun hm => ⟨bytes, hm, StringPool.find_eq_some.2 hk⟩

/-- A read by name has the value of the table. -/
theorem readName_spec (h : g.Sound) (name : List UInt8) :
    (g.readName name).1 = ((g.strings.find name).map fun key => g.table.get (.str key)).getD .nil := by
  rw [readName]
  cases hn : Builtin.fromName name with
  | some b =>
    have hfind : g.strings.find name = some (g.builtinNames b) := by
      rw [StringPool.find_eq_some, h.names b, Builtin.name_of_fromName hn]
    rw [hfind]
    exact (readBuiltin_spec h b).1
  | none =>
    cases hf : g.strings.find name with
    | none => rfl
    | some key => exact (h.read key none (by simp)).1

end GlobalEnv

open GlobalEnv

/-- Restricting the environment isolates it, as long as neither the version of the global
    table nor its epoch wraps. Right after a restriction, whichever cache or mirror it is
    read through, a global has the value it had if its name is whitelisted, and is nil
    otherwise. And after the matching end, whatever was done in between, the contents,
    their order, the phase and every read are what they were. -/
theorem restricted_env_isolated (A : Allocator) (g : GlobalEnv) (whitelist : List (List UInt8))
    (h : Reached A (GlobalEnv.Steady A) g) (hst : g.Steady A (.restrict whitelist)) :
    ∃ g₁, g.restrict A whitelist = some g₁ ∧
      (∀ name, (g₁.readName name).1 = if name ∈ whitelist then (g.readName name).1 else .nil) ∧
      (∀ key bytes, g.strings.get key = some bytes → ∀ cacheSlot, (g₁.readGlobal key cacheSlot).1 =
        if bytes ∈ whitelist then (g.readGlobal key cacheSlot).1 else .nil) ∧
      (∀ b, (g₁.readBuiltin b).1 = if b.name ∈ whitelist then (g.readBuiltin b).1 else .nil) ∧
      ∀ g₂, Within A (GlobalEnv.Steady A) g₁ g₂ → g₂.Steady A .resume →
        ∃ g₃, g₂.resume = some g₃ ∧ g₃.table = { g.table with version := g₃.table.version } ∧
          (∀ control, g₃.table.next control = g.table.next control) ∧ g₃.phase = g.phase ∧
          g₃.suspendedEnvs = g.suspendedEnvs ∧
          (∀ key cacheSlot, (g₃.readGlobal key cacheSlot).1 = (g.readGlobal key cacheSlot).1) ∧
          ∀ b, (g₃.readBuiltin b).1 = (g.readBuiltin b).1 := by
  have hs := h.sound
  obtain ⟨t, g₁, hg₁, hb, hs₁, heq⟩ := restrict_spec hs hst
  have hnames : g₁.builtinNames = g.builtinNames := by rw [heq]; rfl
  have hstrings : g₁.strings = g.strings := by rw [heq]; rfl
  have hget : ∀ key bytes, g.strings.get key = some bytes →
      g₁.table.get (.str key) = if bytes ∈ whitelist then g.table.get (.str key) else .nil := by
    intro key bytes hk
    have htable : g₁.table.get (.str key) = t.get (.str key) := by rw [heq]; rfl
    rw [htable, hb.get_eq]
    simp only [brought_iff hk]
  refine ⟨g₁, hg₁, fun name => ?_, fun key bytes hk slot => ?_, fun b => ?_, fun g₂ hw hst₂ => ?_⟩
  · rw [readName_spec hs₁, readName_spec hs, hstrings]
    cases hf : g.strings.find name with
    | none => simp
    | some key => exact hget key name (StringPool.find_eq_some.1 hf)
  · rw [(readGlobal_spec hs₁ key slot).1, (readGlobal_spec hs key slot).1, hget key bytes hk]
  · rw [(readBuiltin_spec hs₁ b).1, (readBuiltin_spec hs b).1, hnames, hget _ _ (hs.names b)]
  · obtain ⟨hs₂, henvs, hnames₂⟩ := hw.suspended hs₁
    rw [heq] at henvs
    obtain ⟨g₃, hg₃, hs₃, heq₃⟩ := resume_spec hs₂ henvs hst₂
    have htable : g₃.table = { g.table with version := g₃.table.version } := by rw [heq₃]; rfl
    have hget₃ : ∀ key, g₃.table.get (.str key) = g.table.get (.str key) := fun key => by
      rw [htable]; rfl
    have hnames₃ : g₃.builtinNames = g.builtinNames := by
      rw [heq₃]
      exact hnames₂.trans hnames
    refine ⟨g₃, hg₃, htable, fun control => by rw [htable]; rfl, by rw [heq₃], by rw [heq₃],
      fun key slot => ?_, fun b => ?_⟩
    · rw [(readGlobal_spec hs₃ key slot).1, (readGlobal_spec hs key slot).1, hget₃]
    · rw [(readBuiltin_spec hs₃ b).1, (readBuiltin_spec hs b).1, hnames₃, hget₃]

namespace GlobalEnv

/-- The empty environment with its first builtin bound. -/
def printing : GlobalEnv := new.touch { new.table with
  storage := .map ⟨[(.live (.str (new.builtinNames .print)), .bool true)]⟩ (slotPolicy .initializing) }

theorem printing_reached {P : GlobalEnv → GlobalOp → Prop}
    (hP : P .new (.writeBuiltin .print (.bool true))) : Reached .exact P printing :=
  ⟨[.writeBuiltin .print (.bool true)], [.nil], ⟨trivial, hP, fun _ _ _ => trivial⟩, rfl⟩

theorem printing_steady : new.Steady .exact (.writeBuiltin .print (.bool true)) := by
  refine ⟨fun v g h => ?_, by simp⟩
  have hstep : new.step .exact (.writeBuiltin .print (.bool true)) = some (.nil, printing) := rfl
  rw [hstep] at h
  cases h
  exact ⟨UInt64.le_refl _, (by decide : (1 : UInt64) ≤ 2)⟩

theorem printing_read : (printing.readBuiltin .print).1 = .bool true := by
  have hs := (printing_reached printing_steady).sound
  rw [(readBuiltin_spec hs _).1]
  exact Table.get_of_slot (i := 0) hs.ok.flat.hash.slots_ok rfl

/-- Restricting moves each counter by one. -/
theorem steady_restrict {g : GlobalEnv} (h : g.Sound) (hv : g.table.version ≤ g.table.version + 1)
    (he : g.watchedEpoch ≤ g.watchedEpoch + 1) (A : Allocator) (whitelist : List (List UInt8)) :
    g.Steady A (.restrict whitelist) := by
  refine ⟨fun v g' hstep => ?_, by simp⟩
  obtain ⟨t, _, _, -, hb, hg, -, -, rfl, -⟩ := restrict_agrees h (.refl g) A whitelist
  have heq := hstep.symm.trans (congrArg (Option.map (Val.nil, ·)) hg)
  cases heq
  have hle : t.version ≤ g.table.version := by
    rw [hb.fresh.version, UInt64.le_iff_toNat_le]
    exact Nat.zero_le _
  refine ⟨?_, he⟩
  show g.table.version ≤ (g.table.swapContents t).1.version
  rwa [swapContents_version hle]

/-- Accesses that change nothing, in between. -/
theorem within_idle {A : Allocator} {g g₁ : GlobalEnv} (h : Within A (fun _ _ => True) g g₁) (k : Nat) :
    Within A (fun _ _ => True) g { g₁ with watchedEpoch := g₁.watchedEpoch + .ofNat k } := by
  induction k with
  | zero =>
    rw [show g₁.watchedEpoch + UInt64.ofNat 0 = g₁.watchedEpoch by simp]
    exact h
  | succ k ih =>
    have hno : ¬GlobalOp.IsSwap (.access []) := id
    have hstep := ih.op (v := .nil) hno trivial trivial rfl
    rwa [touch, UInt64.add_assoc, ← UInt64.ofNat_one, ← UInt64.ofNat_add] at hstep

end GlobalEnv

/-- A whitelisted builtin keeps its value. -/
theorem restricted_env_isolated_print : ∃ g₁,
    printing.restrict .exact [Builtin.print.name] = some g₁ ∧ (g₁.readBuiltin .print).1 = .bool true := by
  have hr := printing_reached printing_steady
  have hst := steady_restrict hr.sound (by decide) (by decide) .exact [Builtin.print.name]
  obtain ⟨g₁, hg₁, -, -, hread, -⟩ := restricted_env_isolated .exact printing [Builtin.print.name] hr hst
  exact ⟨g₁, hg₁, by rw [hread, if_pos (by simp), printing_read]⟩

/-- The isolation lasts for a whole round of the epoch only: after `2 ^ 64` accesses
    within a restricted environment, what was mirrored in it is read outside. -/
theorem restricted_env_after_round : ∃ g g₁ g₂ g₃, Reached .exact (fun _ _ => True) g ∧
    g.restrict .exact [] = some g₁ ∧ Within .exact (fun _ _ => True) g₁ g₂ ∧ g₂.resume = some g₃ ∧
    (g.readBuiltin .print).1 = .bool true ∧ (g₃.readBuiltin .print).1 = .nil := by
  have hr := printing_reached printing_steady
  have hst := steady_restrict hr.sound (by decide) (by decide) .exact []
  obtain ⟨t, g₁, hg₁, hb, hs₁, heq⟩ := restrict_spec hr.sound hst
  obtain ⟨k, hk⟩ : ∃ k, k = 2 ^ 64 - 1 := ⟨_, rfl⟩
  obtain ⟨hval, -, hsame⟩ := readBuiltin_spec hs₁ .print
  have hread : Within .exact (fun _ _ => True) g₁ (g₁.readBuiltin .print).2 :=
    (Within.refl g₁).op (id : ¬GlobalOp.IsSwap (.readBuiltin .print)) trivial trivial rfl
  have henvs : (g₁.readBuiltin .print).2.suspendedEnvs =
      ⟨printing.table, printing.phase⟩ :: printing.suspendedEnvs := by rw [hsame.suspendedEnvs, heq]
  refine ⟨printing, g₁, _, _, printing_reached trivial, hg₁, within_idle hread k,
    by rw [resume, henvs], printing_read, ?_⟩
  have hepoch : (g₁.readBuiltin .print).2.watchedEpoch + .ofNat k + 1 = g₁.watchedEpoch := by
    rw [(readBuiltin_mirror g₁ .print).2, UInt64.add_assoc, hk, show
      UInt64.ofNat (2 ^ 64 - 1) + 1 = 0 by decide, UInt64.add_zero]
  rw [readBuiltin_of_epoch (g := g₁) (by rfl) hepoch, hval]
  have hget : g₁.table.get (.str (g₁.builtinNames .print)) = t.get (.str (g₁.builtinNames .print)) := by
    rw [heq]
    rfl
  rw [hget, hb.get_eq]
  simp

end Dellingr
