import Mathlib.Logic.Relation

/-!
Loops as rounds. A round goes on from a new state or returns, and a run is a number of
rounds at most. A loop of which every round comes nearer to the end, or stands still,
ends exactly when it never stands still.
-/

namespace ZStage.Lib.Rounds

open Relation

universe u v

variable {σ : Type u} {ρ : Type v}

/-- At most `fuel` rounds from a state on; `none` for a loop that has not returned then. -/
def run (round : σ → σ ⊕ ρ) : Nat → σ → Option ρ
  | 0, _ => none
  | fuel + 1, s =>
    match round s with
    | .inl t => run round fuel t
    | .inr r => some r

def Goes (round : σ → σ ⊕ ρ) (s t : σ) : Prop := round s = .inl t

variable (round : σ → σ ⊕ ρ) {s t : σ} {fuel : Nat}

theorem run_goes (h : Goes round s t) : run round (fuel + 1) s = run round fuel t := by
  rw [run, h]

theorem run_stands (h : Goes round s s) (fuel : Nat) : run round fuel s = none := by
  induction fuel with
  | zero => rfl
  | succ fuel ih => rw [run_goes round h, ih]

/-- A loop that reaches a state at which it stands still does not return. -/
theorem run_reaches_still (hreach : ReflTransGen (Goes round) s t) (hstill : Goes round t t)
    (fuel : Nat) : run round fuel s = none := by
  induction hreach using ReflTransGen.head_induction_on generalizing fuel with
  | refl => exact run_stands round hstill fuel
  | head hgoes _ ih =>
    cases fuel with
    | zero => rfl
    | succ fuel => rw [run_goes round hgoes, ih]

/-- A loop never returns exactly when there are states in which it goes on among them. -/
theorem never_returns_iff :
    (∀ fuel, run round fuel s = none) ↔
      ∃ p : σ → Prop, p s ∧ ∀ t, p t → ∃ u, Goes round t u ∧ p u := by
  constructor
  · intro hnever
    refine ⟨fun t => ∀ fuel, run round fuel t = none, hnever, ?_⟩
    intro t ht
    cases hround : round t with
    | inl u =>
      refine ⟨u, hround, ?_⟩
      intro fuel
      rw [← run_goes round hround]
      exact ht (fuel + 1)
    | inr r =>
      have hone := ht 1
      rw [run, hround] at hone
      cases hone
  · rintro ⟨p, hs, hgoes⟩ fuel
    induction fuel generalizing s with
    | zero => rfl
    | succ fuel ih =>
      obtain ⟨u, hu, hp⟩ := hgoes s hs
      rw [run_goes round hu, ih hp]

theorem run_unique {fuel' : Nat} {r r' : ρ} (h : run round fuel s = some r)
    (h' : run round fuel' s = some r') : r = r' := by
  induction fuel generalizing s fuel' with
  | zero => cases h
  | succ fuel ih =>
    cases fuel' with
    | zero => cases h'
    | succ fuel' =>
      rw [run] at h h'
      cases hround : round s with
      | inl t =>
        rw [hround] at h h'
        exact ih h h'
      | inr r'' =>
        rw [hround] at h h'
        exact Option.some.inj (h.symm.trans h')

/-- What the rounds of a loop keep, its result has been computed from. -/
theorem run_invariant {p : σ → Prop} {q : ρ → Prop}
    (hgoes : ∀ s t, p s → Goes round s t → p t) (hreturns : ∀ s r, p s → round s = .inr r → q r)
    (hs : p s) {r : ρ} (hrun : run round fuel s = some r) : q r := by
  induction fuel generalizing s with
  | zero => cases hrun
  | succ fuel ih =>
    rw [run] at hrun
    cases hround : round s with
    | inl t =>
      rw [hround] at hrun
      exact ih (hgoes s t hs hround) hrun
    | inr r' =>
      rw [hround] at hrun
      cases hrun
      exact hreturns s r hs hround

/-- A loop that keeps `p`, and of which every round from there stands still or takes the
measure down. -/
structure Advances (p : σ → Prop) (measure : σ → Nat) : Prop where
  keeps : ∀ s t, p s → Goes round s t → p t
  progress : ∀ s t, p s → Goes round s t → t = s ∨ measure t < measure s

variable {round} {p : σ → Prop} {measure : σ → Nat}

theorem Advances.reaches (h : Advances round p measure) (hs : p s)
    (hreach : ReflTransGen (Goes round) s t) : p t := by
  induction hreach with
  | refl => exact hs
  | tail _ hgoes ih => exact h.keeps _ _ ih hgoes

/-- When such a loop never stands still, it returns within as many rounds as the measure has
values. -/
theorem Advances.run_isSome (h : Advances round p measure) (hs : p s)
    (hmoves : ∀ t, ReflTransGen (Goes round) s t → ¬ Goes round t t) (hfuel : measure s < fuel) :
    (run round fuel s).isSome := by
  induction fuel generalizing s with
  | zero => omega
  | succ fuel ih =>
    rw [run]
    cases hround : round s with
    | inr r => rfl
    | inl t =>
      have hgoes : Goes round s t := hround
      rcases h.progress s t hs hgoes with rfl | hdown
      · exact absurd hgoes (hmoves t .refl)
      · exact ih (h.keeps s t hs hgoes) (fun u hu => hmoves u (.head hgoes hu)) (by omega)

theorem Advances.ends_iff (h : Advances round p measure) (hs : p s) :
    (∃ fuel, (run round fuel s).isSome) ↔
      ∀ t, ReflTransGen (Goes round) s t → ¬ Goes round t t := by
  constructor
  · rintro ⟨fuel, hsome⟩ t hreach hstill
    rw [run_reaches_still round hreach hstill] at hsome
    cases hsome
  · intro hmoves
    exact ⟨measure s + 1, h.run_isSome hs hmoves (Nat.lt_succ_self _)⟩

end ZStage.Lib.Rounds
