import Mathlib.Data.List.Chain

/-!
Trees as the depths of their nodes in preorder. The parent of a node is the last node
before it that is one level up, and what is under a node is a run of deeper ones behind
it. The levels say all of this as long as no step goes down by more than one.
-/

namespace ZStage.Lib.Preorder

/-- The depths of the nodes of one tree. -/
structure IsPreorder (ds : List Nat) : Prop where
  root : ds[0]? = some 0
  inner : ∀ i d, 0 < i → ds[i]? = some d → 0 < d
  step : ds.IsChain fun a b => b ≤ a + 1

/-- The last place at which a depth stands. -/
def lastAt (k : Nat) : List Nat → Option Nat
  | [] => none
  | d :: rest =>
    match lastAt k rest with
    | some j => some (j + 1)
    | none => if d = k then some 0 else none

theorem lastAt_eq_none_iff {k : Nat} {ds : List Nat} : lastAt k ds = none ↔ k ∉ ds := by
  induction ds with
  | nil => simp [lastAt]
  | cons d rest ih =>
    rw [lastAt, List.mem_cons, not_or, ← ih]
    cases lastAt k rest with
    | none => simp [eq_comm]
    | some j => simp

theorem lastAt_eq_some_iff {k j : Nat} {ds : List Nat} :
    lastAt k ds = some j ↔ ds[j]? = some k ∧ ∀ i, j < i → ds[i]? ≠ some k := by
  induction ds generalizing j with
  | nil => simp [lastAt]
  | cons d rest ih =>
    rw [lastAt]
    cases hrest : lastAt k rest with
    | some i =>
      obtain ⟨hi, hlast⟩ := ih.1 hrest
      cases j with
      | zero =>
        simp only [Option.some.injEq, reduceCtorEq, false_iff, not_and]
        intro _ hall
        exact hall (i + 1) (Nat.succ_pos i) hi
      | succ j =>
        rw [Option.some.injEq, Nat.succ_inj, List.getElem?_cons_succ]
        constructor
        · rintro rfl
          refine ⟨hi, ?_⟩
          intro n hn
          cases n with
          | zero => omega
          | succ n => exact hlast n (by omega)
        · rintro ⟨hj, hall⟩
          have hij := (ih (j := j)).2 ⟨hj, fun n hn => hall (n + 1) (by omega)⟩
          exact Option.some.inj (hrest.symm.trans hij)
    | none =>
      have hnone := lastAt_eq_none_iff.1 hrest
      cases j with
      | zero =>
        simp only [List.getElem?_cons_zero, Option.some.injEq]
        constructor
        · intro hd
          have hdk : d = k := by
            by_contra hne
            rw [if_neg hne] at hd
            cases hd
          refine ⟨hdk, ?_⟩
          intro n hn
          cases n with
          | zero => omega
          | succ n => exact fun h => hnone (List.mem_of_getElem? h)
        · rintro ⟨hd, -⟩
          rw [if_pos hd]
      | succ j =>
        constructor
        · intro hd
          simp only at hd
          split at hd <;> simp at hd
        · rintro ⟨hj, -⟩
          rw [List.getElem?_cons_succ] at hj
          exact absurd (List.mem_of_getElem? hj) hnone

/-- The node that a node is directly under. -/
def parent (ds : List Nat) (i : Nat) : Option Nat :=
  match ds[i]? with
  | some (d + 1) => lastAt d (ds.take i)
  | _ => none

/-- The node `n` levels up. -/
def ancestor (ds : List Nat) : Nat → Nat → Option Nat
  | 0, i => some i
  | n + 1, i => (parent ds i).bind (ancestor ds n)

section Lemmas

variable {ds : List Nat} {i j k d n : Nat}

theorem getElem?_take_of_lt {l : Nat} (h : l < i) : (ds.take i)[l]? = ds[l]? := by
  rw [List.getElem?_take, if_pos h]

theorem lastAt_take_eq_some_iff :
    lastAt k (ds.take i) = some j ↔
      j < i ∧ ds[j]? = some k ∧ ∀ l, j < l → l < i → ds[l]? ≠ some k := by
  rw [lastAt_eq_some_iff]
  constructor
  · rintro ⟨hj, hlast⟩
    have hji : j < i := by
      by_contra hle
      rw [List.getElem?_take, if_neg hle] at hj
      cases hj
    rw [getElem?_take_of_lt hji] at hj
    refine ⟨hji, hj, ?_⟩
    intro l hjl hli
    rw [← getElem?_take_of_lt hli]
    exact hlast l hjl
  · rintro ⟨hji, hj, hlast⟩
    refine ⟨by rw [getElem?_take_of_lt hji, hj], ?_⟩
    intro l hjl
    by_cases hli : l < i
    · rw [getElem?_take_of_lt hli]
      exact hlast l hjl hli
    · rw [List.getElem?_take, if_neg hli]
      exact nofun

theorem parent_of_depth (h : ds[i]? = some (d + 1)) : parent ds i = lastAt d (ds.take i) := by
  rw [parent, h]

theorem parent_eq_some_iff :
    parent ds i = some j ↔ ∃ d, ds[i]? = some (d + 1) ∧ j < i ∧ ds[j]? = some d ∧
      ∀ l, j < l → l < i → ds[l]? ≠ some d := by
  constructor
  · intro h
    match hd : ds[i]? with
    | some (d + 1) => exact ⟨d, rfl, lastAt_take_eq_some_iff.1 (parent_of_depth hd ▸ h)⟩
    | some 0 => simp [parent, hd] at h
    | none => simp [parent, hd] at h
  · rintro ⟨d, hd, hlast⟩
    rw [parent_of_depth hd]
    exact lastAt_take_eq_some_iff.2 hlast

theorem parent_lt (h : parent ds i = some j) : j < i := by
  obtain ⟨_, _, hji, _⟩ := parent_eq_some_iff.1 h
  exact hji

theorem IsPreorder.step_le (h : IsPreorder ds) {a b : Nat} (ha : ds[i]? = some a)
    (hb : ds[i + 1]? = some b) : b ≤ a + 1 := by
  obtain ⟨hi, rfl⟩ := List.getElem?_eq_some_iff.1 ha
  obtain ⟨hi', rfl⟩ := List.getElem?_eq_some_iff.1 hb
  exact h.step.getElem i hi'

/-- On the way down to a node, every level in between is passed. -/
theorem IsPreorder.climb (h : IsPreorder ds) {a b m : Nat} (hij : i ≤ j) (ha : ds[i]? = some a)
    (hb : ds[j]? = some b) (ham : a ≤ m) (hmb : m < b) :
    ∃ l, i ≤ l ∧ l < j ∧ ds[l]? = some m := by
  induction j, hij using Nat.le_induction generalizing b with
  | base =>
    rw [ha, Option.some.injEq] at hb
    omega
  | succ j hij ih =>
    obtain ⟨hlt, -⟩ := List.getElem?_eq_some_iff.1 hb
    have hc : ds[j]? = some ds[j] := List.getElem?_eq_getElem (by omega)
    have hstep := h.step_le hc hb
    rcases Nat.lt_or_ge m ds[j] with hbelow | hat
    · obtain ⟨l, hil, hlj, hl⟩ := ih hc hbelow
      exact ⟨l, hil, by omega, hl⟩
    · exact ⟨j, hij, Nat.lt_succ_self j, by rw [hc]; congr 1; omega⟩

/-- Every node but the root is under another one. -/
theorem IsPreorder.parent_isSome (h : IsPreorder ds) (hd : ds[i]? = some (d + 1)) :
    ∃ j, parent ds i = some j := by
  rw [parent_of_depth hd]
  cases hlast : lastAt d (ds.take i) with
  | some j => exact ⟨j, rfl⟩
  | none =>
    obtain ⟨l, -, hli, hl⟩ := h.climb (Nat.zero_le i) h.root hd (Nat.zero_le d) (Nat.lt_succ_self d)
    refine absurd ?_ (lastAt_eq_none_iff.1 hlast)
    exact List.mem_of_getElem? (by rw [getElem?_take_of_lt hli, hl])

theorem IsPreorder.ancestor_isSome (h : IsPreorder ds) (hd : ds[i]? = some (k + n)) :
    ∃ j, ancestor ds n i = some j ∧ ds[j]? = some k := by
  induction n generalizing i with
  | zero => exact ⟨i, rfl, hd⟩
  | succ n ih =>
    obtain ⟨p, hp⟩ := h.parent_isSome (d := k + n) hd
    obtain ⟨d, hi, -, hdepth, -⟩ := parent_eq_some_iff.1 hp
    obtain rfl : d = k + n := by
      rw [hd, Option.some.injEq] at hi
      omega
    obtain ⟨j, hj, hk⟩ := ih hdepth
    exact ⟨j, by rw [ancestor, hp, Option.bind_some, hj], hk⟩

/-- What lies between a node and a node under it is under the former, too. -/
theorem IsPreorder.between (h : IsPreorder ds) (hparent : parent ds i = some j)
    (hd : ds[j]? = some d) {l c : Nat} (hjl : j < l) (hli : l ≤ i) (hc : ds[l]? = some c) :
    d < c := by
  obtain ⟨d', hi, hji, hj, hlast⟩ := parent_eq_some_iff.1 hparent
  obtain rfl : d' = d := Option.some.inj (hj.symm.trans hd)
  by_contra hle
  rcases Nat.lt_or_eq_of_le hli with hlt | rfl
  · obtain ⟨l', hll', hl'i, hl'⟩ := h.climb (Nat.le_of_lt hlt) hc hi (Nat.not_lt.1 hle)
      (Nat.lt_succ_self d')
    exact hlast l' (by omega) hl'i hl'
  · rw [hi, Option.some.injEq] at hc
    omega

/-- The nodes directly under a node are those one level down in the run of deeper nodes behind
it. -/
theorem IsPreorder.parent_eq_some_iff_run (h : IsPreorder ds) (hd : ds[j]? = some d) :
    parent ds i = some j ↔
      j < i ∧ ds[i]? = some (d + 1) ∧ ∀ l c, j < l → l < i → ds[l]? = some c → d < c := by
  constructor
  · intro hparent
    obtain ⟨d', hi, hji, hj, -⟩ := parent_eq_some_iff.1 hparent
    obtain rfl : d' = d := Option.some.inj (hj.symm.trans hd)
    exact ⟨hji, hi, fun l c hjl hli hc => h.between hparent hd hjl (Nat.le_of_lt hli) hc⟩
  · rintro ⟨hji, hi, hrun⟩
    refine parent_eq_some_iff.2 ⟨d, hi, hji, hd, ?_⟩
    intro l hjl hli hl
    exact absurd (hrun l d hjl hli hl) (Nat.lt_irrefl d)

/-- The last node at a level, up to and with a node, is the one above it at that level. -/
theorem IsPreorder.lastAt_eq_ancestor (h : IsPreorder ds) (hd : ds[i]? = some (k + n)) :
    lastAt k (ds.take (i + 1)) = ancestor ds n i := by
  induction n generalizing i with
  | zero =>
    rw [ancestor, lastAt_take_eq_some_iff]
    exact ⟨Nat.lt_succ_self i, hd, fun l hil hli => absurd hil (by omega)⟩
  | succ n ih =>
    obtain ⟨j, hj⟩ := h.parent_isSome (d := k + n) hd
    obtain ⟨d, hi, hji, hdepth, -⟩ := parent_eq_some_iff.1 hj
    obtain rfl : d = k + n := by
      rw [hd, Option.some.injEq] at hi
      omega
    rw [ancestor, hj, Option.bind_some, ← ih hdepth]
    -- behind the parent no node is as high as `k`
    have hdeep (l : Nat) (hjl : j < l) (hli : l < i + 1) : ds[l]? ≠ some k := by
      intro hl
      have := h.between hj hdepth hjl (by omega) hl
      omega
    cases hlast : lastAt k (ds.take (j + 1)) with
    | some p =>
      obtain ⟨hpj, hp, hrest⟩ := lastAt_take_eq_some_iff.1 hlast
      rw [lastAt_take_eq_some_iff]
      refine ⟨by omega, hp, ?_⟩
      intro l hpl hli
      rcases Nat.lt_or_ge l (j + 1) with hlj | hjl
      · exact hrest l hpl hlj
      · exact hdeep l hjl hli
    | none =>
      have hnone := lastAt_eq_none_iff.1 hlast
      rw [lastAt_eq_none_iff]
      intro hmem
      obtain ⟨l, hl⟩ := List.getElem?_of_mem hmem
      have hli : l < i + 1 := by
        by_contra hge
        rw [List.getElem?_take, if_neg hge] at hl
        cases hl
      rw [getElem?_take_of_lt hli] at hl
      rcases Nat.lt_or_ge l (j + 1) with hlj | hjl
      · exact hnone (List.mem_of_getElem? (by rw [getElem?_take_of_lt hlj, hl]))
      · exact hdeep l hjl hli hl

end Lemmas

/-! ## Children -/

/-- The first child of a node that passes a test. -/
def firstChild (ds : List Nat) (i : Nat) (test : Nat → Bool) : Option Nat :=
  (List.range ds.length).find? fun j => parent ds j = some i ∧ test j

/-- A search among the depths from place `j` on, which ends at one that is not below `d`. -/
def scanChildren (d : Nat) (test : Nat → Bool) : Nat → List Nat → Option Nat
  | _, [] => none
  | j, x :: rest =>
    if x ≤ d then none
    else if x = d + 1 ∧ test j then some j
    else scanChildren d test (j + 1) rest

section Children

variable {ds : List Nat} {i d : Nat} (test : Nat → Bool)

theorem drop_range {n j : Nat} (h : j < n) :
    (List.range n).drop j = j :: (List.range n).drop (j + 1) := by
  rw [List.drop_eq_getElem_cons (by rwa [List.length_range]), List.getElem_range]

theorem IsPreorder.scanChildren_eq (h : IsPreorder ds) (hd : ds[i]? = some d) {j : Nat}
    (hij : i < j) (hrun : ∀ l c, i < l → l < j → ds[l]? = some c → d < c) :
    scanChildren d test j (ds.drop j) =
      ((List.range ds.length).drop j).find? fun j => parent ds j = some i ∧ test j := by
  induction hleft : ds.length - j generalizing j with
  | zero =>
    rw [List.drop_eq_nil_of_le (by omega),
      List.drop_eq_nil_of_le (by rw [List.length_range]; omega)]
    rfl
  | succ left ih =>
    have hj : j < ds.length := by omega
    rw [List.drop_eq_getElem_cons hj, scanChildren, drop_range hj, List.find?_cons]
    have hget : ds[j]? = some ds[j] := List.getElem?_eq_getElem hj
    by_cases hstop : ds[j] ≤ d
    · -- nothing behind a node that is not below `i` is a child of `i`
      rw [if_pos hstop]
      have hnone (k : Nat) (hjk : j ≤ k) : parent ds k ≠ some i := by
        intro hparent
        have := h.between hparent hd hij hjk hget
        omega
      rw [eq_comm]
      simp only [hnone j (Nat.le_refl j), false_and, decide_false]
      rw [List.find?_eq_none]
      intro k hk
      obtain ⟨l, hl⟩ := List.getElem?_of_mem hk
      rw [List.getElem?_drop] at hl
      obtain ⟨-, rfl⟩ := List.getElem?_eq_some_iff.1 hl
      rw [List.getElem_range]
      simp [hnone (j + 1 + l) (by omega)]
    · rw [if_neg hstop]
      have hparent : parent ds j = some i ↔ ds[j] = d + 1 := by
        rw [h.parent_eq_some_iff_run hd, hget]
        simp only [Option.some.injEq]
        exact ⟨fun hall => hall.2.1, fun heq => ⟨hij, heq, hrun⟩⟩
      have hrun' (l c : Nat) (hil : i < l) (hlj : l < j + 1) (hl : ds[l]? = some c) : d < c := by
        rcases Nat.lt_succ_iff_lt_or_eq.1 hlj with hlt | rfl
        · exact hrun l c hil hlt hl
        · rw [hget, Option.some.injEq] at hl
          omega
      simp only [hparent]
      by_cases hfound : ds[j] = d + 1 ∧ test j
      · simp [hfound]
      · simp only [hfound, if_false, decide_false]
        exact ih (by omega) hrun' (by omega)

/-- Searching the run behind a node finds its first child. -/
theorem IsPreorder.scanChildren_eq_firstChild (h : IsPreorder ds) (hd : ds[i]? = some d) :
    scanChildren d test (i + 1) (ds.drop (i + 1)) = firstChild ds i test := by
  rw [h.scanChildren_eq test hd (Nat.lt_succ_self i) (fun l c hil hli => absurd hil (by omega)),
    firstChild]
  conv => rhs; rw [← List.take_append_drop (i + 1) (List.range ds.length), List.find?_append]
  have hnone : (((List.range ds.length).take (i + 1)).find? fun j =>
      parent ds j = some i ∧ test j) = none := by
    rw [List.find?_eq_none]
    intro j hj
    obtain ⟨l, hl⟩ := List.getElem?_of_mem hj
    have hlt : l < i + 1 := by
      by_contra hge
      rw [List.getElem?_take, if_neg hge] at hl
      cases hl
    rw [List.getElem?_take, if_pos hlt] at hl
    obtain ⟨-, rfl⟩ := List.getElem?_eq_some_iff.1 hl
    rw [List.getElem_range]
    have hno : parent ds l ≠ some i := fun hparent => absurd (parent_lt hparent) (by omega)
    simp [hno]
  rw [hnone, Option.none_or]

end Children

end ZStage.Lib.Preorder
