import ZStage.Lib.CopySequence

/-!
A program that shares its memory with others, one access at a time. Between two of its
accesses the others change bytes of `foreign`. A program that is confined on its run
alone, so that no access of it depends on those bytes and none leaves the bytes of `own`,
computes among the others what it computes alone.
-/

namespace ZStage.Lib.Interleaving

open ZStage.Lib.ByteMemory ZStage.Lib.CopySequence

variable {w : Nat} {ρ σ : Type}

/-- What a program still does: it is done, or its next access turns the memory into `f` of
it and goes on after what it saw. -/
inductive Prog (w : Nat) (ρ : Type)
  | done (r : ρ)
  | access (f : Memory w → Memory w) (next : Memory w → Prog w ρ)

namespace Prog

def bind : Prog w ρ → (ρ → Prog w σ) → Prog w σ
  | .done r, k => k r
  | .access f next, k => .access f fun m => (next m).bind k

instance : Monad (Prog w) where
  pure := .done
  bind := .bind

/-- An access that only reads. -/
def look (g : Memory w → ρ) : Prog w ρ := .access id fun m => .done (g m)

/-- An access that only writes. -/
def change (f : Memory w → Memory w) : Prog w Unit := .access f fun _ => .done ()

/-- The run of a program that has its memory for itself. -/
def run : Prog w ρ → Memory w → ρ × Memory w
  | .done r, m => (r, m)
  | .access f next, m => (next m).run (f m)

@[simp] theorem run_pure (r : ρ) (m : Memory w) : (pure r : Prog w ρ).run m = (r, m) := rfl

theorem run_bind (p : Prog w ρ) (k : ρ → Prog w σ) (m : Memory w) :
    (p >>= k).run m = (k (p.run m).1).run (p.run m).2 := by
  change (p.bind k).run m = _
  induction p generalizing m with
  | done r => rfl
  | access f next ih =>
      simp only [bind, run]
      exact ih m (f m)

@[simp] theorem run_look_bind (g : Memory w → ρ) (k : ρ → Prog w σ) (m : Memory w) :
    (look g >>= k).run m = (k (g m)).run m := rfl

@[simp] theorem run_change_bind (f : Memory w → Memory w) (k : Unit → Prog w σ) (m : Memory w) :
    (change f >>= k).run m = (k ()).run (f m) := rfl

@[simp] theorem run_ite (c : Prop) [Decidable c] (p q : Prog w ρ) (m : Memory w) :
    (if c then p else q).run m = if c then p.run m else q.run m :=
  apply_ite (Prog.run · m) c p q

/-- What is left of a program after an access. -/
def Rest (q p : Prog w ρ) : Prop := ∃ f next m, p = .access f next ∧ q = next m

/-- A program comes to its end, whatever it sees. -/
theorem rest_wf : WellFounded (Rest (w := w) (ρ := ρ)) := by
  constructor
  intro p
  induction p with
  | done r =>
      constructor
      rintro q ⟨f, next, m, hp, -⟩
      cases hp
  | access f next ih =>
      constructor
      rintro q ⟨f', next', m, hp, rfl⟩
      cases hp
      exact ih m

/-! ### Confinement -/

/-- On the run from `m`, an access finds the same and leaves the same whatever the bytes of
`foreign` are, and it writes bytes of `own` only. -/
inductive Confined (foreign own : BitVec w → Prop) : Prog w ρ → Memory w → Prop
  | done {r : ρ} {m : Memory w} : Confined foreign own (.done r) m
  | access {f : Memory w → Memory w} {next : Memory w → Prog w ρ} {m : Memory w}
      (hforeign : ∀ m', Within foreign m m' → Within foreign (f m) (f m'))
      (hown : ∀ m', Within foreign m m' → Within own m' (f m'))
      (hseen : ∀ m', Within foreign m m' → next m' = next m)
      (hnext : Confined foreign own (next m) (f m)) : Confined foreign own (.access f next) m

variable {foreign own : BitVec w → Prop} {m m' : Memory w}

theorem confined_pure (r : ρ) : (pure r : Prog w ρ).Confined foreign own m := .done

theorem confined_look {g : Memory w → ρ} (hg : ∀ m', Within foreign m m' → g m' = g m) :
    (look g).Confined foreign own m :=
  .access (fun _ hm' => hm') (fun m' _ => .refl own m')
    (fun m' hm' => congrArg Prog.done (hg m' hm')) .done

theorem confined_change {f : Memory w → Memory w}
    (hforeign : ∀ m', Within foreign m m' → Within foreign (f m) (f m'))
    (hown : ∀ m', Within own m' (f m')) : (change f).Confined foreign own m :=
  .access hforeign (fun m' _ => hown m') (fun _ _ => rfl) .done

theorem Confined.bind {p : Prog w ρ} {k : ρ → Prog w σ} (hp : p.Confined foreign own m)
    (hk : (k (p.run m).1).Confined foreign own (p.run m).2) :
    (p >>= k).Confined foreign own m := by
  change (p.bind k).Confined foreign own m
  induction hp with
  | done => exact hk
  | access hforeign hown hseen _ ih =>
      exact .access hforeign hown (fun m' hm' => congrArg (Prog.bind · k) (hseen m' hm')) (ih hk)

theorem confined_look_bind {g : Memory w → ρ} {k : ρ → Prog w σ}
    (hg : ∀ m', Within foreign m m' → g m' = g m) (hk : (k (g m)).Confined foreign own m) :
    (look g >>= k).Confined foreign own m :=
  (confined_look hg).bind hk

theorem confined_change_bind {f : Memory w → Memory w} {k : Unit → Prog w σ}
    (hforeign : ∀ m', Within foreign m m' → Within foreign (f m) (f m'))
    (hown : ∀ m', Within own m' (f m')) (hk : (k ()).Confined foreign own (f m)) :
    (change f >>= k).Confined foreign own m :=
  (confined_change hforeign hown).bind hk

theorem confined_ite {c : Prop} [Decidable c] {p q : Prog w ρ}
    (hp : c → p.Confined foreign own m) (hq : ¬ c → q.Confined foreign own m) :
    (if c then p else q).Confined foreign own m := by
  by_cases hc : c
  · rw [if_pos hc]
    exact hp hc
  · rw [if_neg hc]
    exact hq hc

/-! ### Runs among others -/

variable (foreign own) in
/-- What is left of `p₀`, begun in `m₀`, and the memory `m` shared with others: a state of the
run of `p₀` alone, but for the bytes of the others. -/
def Follows (p₀ : Prog w ρ) (m₀ : Memory w) (p : Prog w ρ) (m : Memory w) : Prop :=
  ∃ m₁, p.run m₁ = p₀.run m₀ ∧ Within foreign m₁ m ∧ p.Confined foreign own m₁

variable {p₀ p : Prog w ρ} {m₀ : Memory w}

theorem Follows.start (hm : Within foreign m₀ m) (hp : p₀.Confined foreign own m₀) :
    Follows foreign own p₀ m₀ p₀ m :=
  ⟨m₀, rfl, hm, hp⟩

/-- A change of the others. -/
theorem Follows.others (h : Follows foreign own p₀ m₀ p m) (hm : Within foreign m m') :
    Follows foreign own p₀ m₀ p m' := by
  obtain ⟨m₁, hrun, hwithin, hconfined⟩ := h
  exact ⟨m₁, hrun, hwithin.trans hm, hconfined⟩

/-- An access of the program. -/
theorem Follows.access {f : Memory w → Memory w} {next : Memory w → Prog w ρ}
    (h : Follows foreign own p₀ m₀ (.access f next) m) :
    Follows foreign own p₀ m₀ (next m) (f m) ∧ Within own m (f m) := by
  obtain ⟨m₁, hrun, hwithin, hconfined⟩ := h
  cases hconfined with
  | access hforeign hown hseen hnext =>
      have hsame := hseen m hwithin
      exact ⟨⟨f m₁, by rw [hsame]; exact hrun, hforeign m hwithin, by rw [hsame]; exact hnext⟩,
        hown m hwithin⟩

/-- At its end a program has computed what it computes alone. -/
theorem Follows.done {r : ρ} (h : Follows foreign own p₀ m₀ (.done r) m) :
    ∃ m₁, p₀.run m₀ = (r, m₁) ∧ Within foreign m₁ m := by
  obtain ⟨m₁, hrun, hwithin, _⟩ := h
  exact ⟨m₁, hrun.symm, hwithin⟩

end Prog

end ZStage.Lib.Interleaving
