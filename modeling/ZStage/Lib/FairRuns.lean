import Mathlib.Order.WellFounded

/-!
Runs of participants that take turns, and what such a run comes to. `LeadsTo` says that one
property follows another sooner or later; in a run that passes nobody over for ever it is
shown by a rank that the turns of one participant bring down and those of the others leave.
-/

namespace ZStage.Lib.FairRuns

variable {σ ι α : Type}

/-- A run in which a participant that stays able to take a turn takes one. -/
structure FairRun (turn : ι → σ → σ → Prop) (r : Nat → σ) : Prop where
  next : ∀ n, r (n + 1) = r n ∨ ∃ i, turn i (r n) (r (n + 1))
  fair : ∀ i n, ∃ k, n ≤ k ∧ (turn i (r k) (r (k + 1)) ∨ ∀ t, ¬ turn i (r k) t)

def LeadsTo (r : Nat → σ) (P Q : σ → Prop) : Prop := ∀ n, P (r n) → ∃ k, n ≤ k ∧ Q (r k)

variable {r : Nat → σ} {P Q R : σ → Prop}

theorem LeadsTo.trans (hPQ : LeadsTo r P Q) (hQR : LeadsTo r Q R) : LeadsTo r P R := by
  intro n hn
  obtain ⟨k, hk, hQ⟩ := hPQ n hn
  obtain ⟨l, hl, hR⟩ := hQR k hQ
  exact ⟨l, hk.trans hl, hR⟩

variable {turn : ι → σ → σ → Prop}

/-- What every turn keeps holds from its first state on. -/
theorem FairRun.stays (hr : FairRun turn r) (hkeeps : ∀ i s t, P s → turn i s t → P t)
    {n k : Nat} (hnk : n ≤ k) (hn : P (r n)) : P (r k) := by
  induction hnk with
  | refl => exact hn
  | step _ ih =>
      rcases hr.next _ with hsame | ⟨i, hturn⟩
      · rw [Nat.succ_eq_add_one, hsame]
        exact ih
      · exact hkeeps i _ _ ih hturn

/-- The rule of a rank: as long as `P` holds the participant `i` is able to take a turn, its
turns bring the rank down, and the turns of the others leave it. -/
theorem FairRun.leadsTo (hr : FairRun turn r) {lt : α → α → Prop} (hwf : WellFounded lt)
    (rank : σ → α) (i : ι) (hable : ∀ s, P s → ∃ t, turn i s t)
    (hown : ∀ s t, P s → turn i s t → Q t ∨ P t ∧ lt (rank t) (rank s))
    (hothers : ∀ j s t, j ≠ i → P s → turn j s t → Q t ∨ P t ∧ rank t = rank s) :
    LeadsTo r P Q := by
  intro n hn
  generalize hrank : rank (r n) = a
  induction a using hwf.induction generalizing n with
  | h a ih =>
    -- up to the next turn of `i` the rank stays
    have hupto (k : Nat) (hk : n ≤ k) :
        (∃ l, n ≤ l ∧ Q (r l)) ∨ P (r k) ∧ rank (r k) = a := by
      induction hk with
      | refl => exact Or.inr ⟨hn, hrank⟩
      | @step m hm ihm =>
          rcases ihm with hdone | ⟨hP, hsame⟩
          · exact Or.inl hdone
          · rcases hr.next m with hstays | ⟨j, hturn⟩
            · rw [Nat.succ_eq_add_one, hstays]
              exact Or.inr ⟨hP, hsame⟩
            · by_cases hj : j = i
              · subst hj
                rcases hown _ _ hP hturn with hQ | ⟨hP', hlt⟩
                · exact Or.inl ⟨m + 1, Nat.le_succ_of_le hm, hQ⟩
                · rw [hsame] at hlt
                  obtain ⟨l, hl, hQ⟩ := ih _ hlt (m + 1) hP' rfl
                  exact Or.inl ⟨l, (Nat.le_succ_of_le hm).trans hl, hQ⟩
              · rcases hothers j _ _ hj hP hturn with hQ | ⟨hP', hrank'⟩
                · exact Or.inl ⟨m + 1, Nat.le_succ_of_le hm, hQ⟩
                · exact Or.inr ⟨hP', hrank'.trans hsame⟩
    obtain ⟨k, hk, hfair⟩ := hr.fair i n
    rcases hupto k hk with hdone | ⟨hP, hsame⟩
    · exact hdone
    · rcases hfair with hturn | hstuck
      · rcases hown _ _ hP hturn with hQ | ⟨hP', hlt⟩
        · exact ⟨k + 1, Nat.le_succ_of_le hk, hQ⟩
        · rw [hsame] at hlt
          obtain ⟨l, hl, hQ⟩ := ih _ hlt (k + 1) hP' rfl
          exact ⟨l, (Nat.le_succ_of_le hk).trans hl, hQ⟩
      · obtain ⟨t, hturn⟩ := hable _ hP
        exact absurd hturn (hstuck t)

end ZStage.Lib.FairRuns
