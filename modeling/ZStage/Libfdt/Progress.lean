import ZStage.Lib.ByteLayout
import ZStage.Lib.Rounds
import ZStage.Libfdt.FdtRo
import ZStage.Libfdt.Token

/-!
When the walk of `fdt_next_node` over the structure block ends. Nothing is known about
the blob but what `fdt_ro_probe_` checks, and that the structure block begins behind the
part of the header which every version has (`28 ≤ off_dt_struct`): with a smaller offset the
header would be read as tokens. The walk leaves every token behind, except a property whose
length takes the offset around 2 ^ 32 back to where it was.
-/

namespace ZStage.Libfdt

open ZStage.Lib.ByteLayout ZStage.Lib.Rounds ZStage.Fdt Relation

namespace Dtb

variable (fdt : Dtb)

def nextNodeRound (s : Int × Option Int) : (Int × Option Int) ⊕ (Int × Option Int) :=
  let tag := (fdt.fdtNextTag s.1).1
  let nextoffset := (fdt.fdtNextTag s.1).2
  if tag = FDT_BEGIN_NODE then .inr (s.1, s.2.map (· + 1))
  else if tag = FDT_END_NODE then
    let depth := s.2.map (· - 1)
    if ∃ d ∈ depth, d < 0 then .inr (nextoffset, depth) else .inl (nextoffset, depth)
  else if tag = FDT_END then
    if 0 ≤ nextoffset ∨ nextoffset = -FDT_ERR_TRUNCATED ∧ s.2 = none then
      .inr (-FDT_ERR_NOTFOUND, s.2)
    else .inr (nextoffset, s.2)
  else .inl (nextoffset, s.2)

theorem nextNodeLoop_eq_run (fuel : Nat) (s : Int × Option Int) :
    fdt.nextNodeLoop fuel s.1 s.2 = run fdt.nextNodeRound fuel s := by
  induction fuel generalizing s with
  | zero => rfl
  | succ fuel ih =>
    rw [nextNodeLoop, run, nextNodeRound]
    simp only
    split_ifs
    · rfl
    · rfl
    · exact ih (_, _)
    · rfl
    · rfl
    · exact ih (_, _)

/-- The length of a property at `o` goes around 2 ^ 32, with the bytes of a realignment. -/
def LengthWraps (o : Nat) : Prop :=
  4 ∣ o ∧ fdt.Fits o 8 ∧ fdt.fdt32 (fdt.offDtStruct + o) = FDT_PROP ∧
    fdt.propSize o (fdt.fdt32 (fdt.offDtStruct + o + 4)) = 0

theorem propSize_eq_zero_iff (hversion : 16 ≤ fdt.version) (o p : Nat) :
    fdt.propSize o (fdt.fdt32 p) = 0 ↔ fdt.fdt32 p = 0xfffffff4 := by
  have hlt := fdt.fdt32_lt p
  rw [propSize, if_neg (by omega)]
  omega

/-- Where a step is no error, it is one forward, but over such a property. -/
theorem fdtNextTag_advances (htotal : fdt.totalsize < INT32_MAX) (hbase : 28 ≤ fdt.offDtStruct)
    {offset : Int} (hoffset : offset < 2 ^ 31)
    (htag : (fdt.fdtNextTag offset).1 ≠ FDT_END ∨ 0 ≤ (fdt.fdtNextTag offset).2) :
    ∃ o next : Nat, offset = o ∧ (fdt.fdtNextTag offset).2 = next ∧ o < fdt.totalsize ∧
      next < fdt.totalsize ∧ o ≤ next ∧
      (next = o → fdt.LengthWraps o ∧ (fdt.fdtNextTag offset).1 = FDT_PROP) := by
  by_cases hneg : offset < 0
  · rw [fdt.fdtNextTag_neg hneg] at htag
    exact absurd htag (by decide)
  · obtain ⟨o, rfl⟩ := Int.eq_ofNat_of_zero_le (Int.not_lt.1 hneg)
    rcases fdt.fdtNextTag_cases htotal hbase (o := o) (by omega) with
      ⟨hend, herr⟩ | ⟨n, hfour, hfits, hstep, hkind⟩
    · exact absurd htag (by omega)
    · have hroom := hfits.1
      have hroom' := hfour.1
      refine ⟨o, (o + n + 3) / 4 * 4, rfl, by rw [hstep], by omega, by omega, by omega, ?_⟩
      intro hsame
      rcases hkind with ⟨-, hn⟩ | ⟨hprop, hlenp, hn⟩
      · omega
      · refine ⟨⟨by omega, hlenp, hprop, by omega⟩, by rw [hstep, hprop]⟩

/-- Over a property with such a length the walk stands still. -/
theorem fdtNextTag_still (htotal : fdt.totalsize < INT32_MAX) (hbase : 28 ≤ fdt.offDtStruct)
    {o : Nat} (h : fdt.LengthWraps o) : fdt.fdtNextTag o = (FDT_PROP, (o : Int)) := by
  obtain ⟨halign, hfits, hprop, hzero⟩ := h
  obtain ⟨offset, hskip, hchecked, hbehind⟩ := fdt.skipToken_prop hfits
  rw [hzero] at hchecked hbehind
  have hblob := hfits.1
  rw [INT32_MAX] at htotal
  rw [fdt.fdtNextTag_of_skip (hfits.mono (by omega)) hprop hskip hchecked, hbehind,
    tagAlign_natCast (by omega)]
  congr 2
  omega

/-! ## `fdt_next_node` -/

def left (offset : Int) : Nat := fdt.totalsize - offset.toNat

/-- Offsets that a round goes on to are ahead in the blob, or the length of a property wraps. -/
theorem left_lt_of_advance (htotal : fdt.totalsize < INT32_MAX) (hbase : 28 ≤ fdt.offDtStruct)
    {offset : Int} (hoffset : offset < 2 ^ 31)
    (htag : (fdt.fdtNextTag offset).1 ≠ FDT_END ∨ 0 ≤ (fdt.fdtNextTag offset).2) :
    (fdt.fdtNextTag offset).2 < 2 ^ 31 ∧
      ((fdt.fdtNextTag offset).2 = offset ∧ (fdt.fdtNextTag offset).1 = FDT_PROP ∨
        fdt.left (fdt.fdtNextTag offset).2 < fdt.left offset) := by
  obtain ⟨o, next, rfl, hnext, ho, hlt, hle, hsame⟩ :=
    fdt.fdtNextTag_advances htotal hbase hoffset htag
  rw [INT32_MAX] at htotal
  rw [hnext]
  refine ⟨by omega, ?_⟩
  rcases Nat.lt_or_eq_of_le hle with hahead | heq
  · right
    simp only [left, Int.toNat_natCast]
    omega
  · exact Or.inl ⟨by omega, (hsame heq.symm).2⟩

def IsInt (s : Int × Option Int) : Prop := s.1 < 2 ^ 31

theorem nextNodeRound_goes {s t : Int × Option Int} (h : Goes fdt.nextNodeRound s t) :
    (fdt.fdtNextTag s.1).1 ≠ FDT_END ∧ t.1 = (fdt.fdtNextTag s.1).2 ∧
      ((fdt.fdtNextTag s.1).1 = FDT_PROP → t.2 = s.2) := by
  rw [Goes, nextNodeRound] at h
  simp only at h
  split_ifs at h with hbegin hend hdepth hfinish
  all_goals cases h
  · refine ⟨by rw [hend]; decide, rfl, ?_⟩
    intro hprop
    rw [hend] at hprop
    exact absurd hprop (by decide)
  · exact ⟨hfinish, rfl, fun _ => rfl⟩

theorem nextNodeRound_advances (htotal : fdt.totalsize < INT32_MAX)
    (hbase : 28 ≤ fdt.offDtStruct) :
    Advances fdt.nextNodeRound IsInt (fun s => fdt.left s.1) := by
  have hround (s t : Int × Option Int) (hs : IsInt s) (hgoes : Goes fdt.nextNodeRound s t) :
      IsInt t ∧ (t = s ∨ fdt.left t.1 < fdt.left s.1) := by
    obtain ⟨hend, hoffset, hdepth⟩ := fdt.nextNodeRound_goes hgoes
    obtain ⟨hlt, hsame | hahead⟩ := fdt.left_lt_of_advance htotal hbase hs (Or.inl hend)
    all_goals rw [IsInt, hoffset]
    · exact ⟨hlt, Or.inl (Prod.ext (hoffset.trans hsame.1) (hdepth hsame.2))⟩
    · exact ⟨hlt, Or.inr hahead⟩
  exact ⟨fun s t hs hgoes => (hround s t hs hgoes).1, fun s t hs hgoes => (hround s t hs hgoes).2⟩

/-- A round of `fdt_next_node` stands still over a property whose length wraps, and over nothing
else. -/
theorem nextNodeRound_still_iff (htotal : fdt.totalsize < INT32_MAX)
    (hbase : 28 ≤ fdt.offDtStruct) {s : Int × Option Int} (hs : IsInt s) :
    Goes fdt.nextNodeRound s s ↔ ∃ o : Nat, s.1 = o ∧ fdt.LengthWraps o := by
  constructor
  · intro hgoes
    obtain ⟨hend, hoffset, -⟩ := fdt.nextNodeRound_goes hgoes
    obtain ⟨o, next, ho, hnext, -, -, -, hsame⟩ :=
      fdt.fdtNextTag_advances htotal hbase hs (Or.inl hend)
    exact ⟨o, ho, (hsame (by omega)).1⟩
  · rintro ⟨o, ho, hwraps⟩
    obtain ⟨offset, depth⟩ := s
    subst ho
    rw [Goes, nextNodeRound]
    simp only [fdt.fdtNextTag_still htotal hbase hwraps]
    rfl

/-- Where the loop of `fdt_next_node` begins; negative where it does not. -/
def nextNodeStart (offset : Int) : Int :=
  if 0 ≤ offset then fdt.fdtCheckNodeOffset offset else 0

theorem fdtNextNode_eq_run (fuel : Nat) (offset : Int) (depth : Option Int) :
    fdt.fdtNextNode fuel offset depth =
      if fdt.nextNodeStart offset < 0 then some (fdt.nextNodeStart offset, depth)
      else run fdt.nextNodeRound fuel (fdt.nextNodeStart offset, depth) := by
  rw [fdtNextNode, nextNodeStart]
  by_cases hpos : 0 ≤ offset
  · simp only [if_pos hpos, ← fdt.nextNodeLoop_eq_run fuel (fdt.fdtCheckNodeOffset offset, depth)]
  · simp only [if_neg hpos, ← fdt.nextNodeLoop_eq_run fuel (0, depth)]
    rfl

theorem nextNodeStart_gt (htotal : fdt.totalsize < INT32_MAX) (hbase : 28 ≤ fdt.offDtStruct)
    {offset : Int} (hoffset : offset < 2 ^ 31) (hstart : 0 ≤ fdt.nextNodeStart offset) :
    offset < fdt.nextNodeStart offset ∧ fdt.nextNodeStart offset < 2 ^ 31 := by
  rw [nextNodeStart, fdtCheckNodeOffset, checkOffset] at *
  have hcode : -FDT_ERR_BADOFFSET < 0 := by decide
  split_ifs at hstart ⊢ with hpos halign htag
  · omega
  · omega
  · have hbegin := not_not.1 htag
    obtain ⟨o, next, rfl, hnext, -, hlt, hle, hsame⟩ :=
      fdt.fdtNextTag_advances htotal hbase hoffset (Or.inr hstart)
    have hne : next ≠ o := by
      intro heq
      have hprop := (hsame heq).2
      rw [hbegin] at hprop
      exact absurd hprop (by decide)
    rw [INT32_MAX] at htotal
    omega
  · omega

/-- An offset that the loop returns is ahead of where it began, and in the blob. -/
theorem nextNodeRound_returns (htotal : fdt.totalsize < INT32_MAX)
    (hbase : 28 ≤ fdt.offDtStruct) {s r : Int × Option Int} (hs : IsInt s)
    (hreturns : fdt.nextNodeRound s = .inr r) (hr : 0 ≤ r.1) :
    s.1 ≤ r.1 ∧ r.1 < fdt.totalsize := by
  have hadvances := fdt.fdtNextTag_advances htotal hbase hs
  rw [nextNodeRound] at hreturns
  simp only at hreturns
  split_ifs at hreturns with hbegin hend hdepth hfinish hcode
  all_goals cases hreturns
  · obtain ⟨o, next, ho, -, hlt, -⟩ := hadvances (Or.inl (by rw [hbegin]; decide))
    exact ⟨Int.le_refl _, by simp only; omega⟩
  · obtain ⟨o, next, ho, hnext, -, hlt, hle, -⟩ := hadvances (Or.inl (by rw [hend]; decide))
    simp only
    omega
  · have hnotfound : ¬ 0 ≤ -FDT_ERR_NOTFOUND := by decide
    exact absurd hr hnotfound
  · exact absurd (Or.inl hr) hcode

theorem totalsize_lt_of_probe (hprobe : 0 ≤ fdt.fdtRoProbe) : fdt.totalsize < INT32_MAX := by
  by_contra hlarge
  have hcode : -FDT_ERR_ALIGNMENT < 0 ∧ -FDT_ERR_BADVERSION < 0 ∧ -FDT_ERR_TRUNCATED < 0 ∧
      -FDT_ERR_BADSTATE < 0 ∧ -FDT_ERR_BADMAGIC < 0 := by decide
  rw [fdtRoProbe] at hprobe
  simp only [if_neg hlarge] at hprobe
  split_ifs at hprobe <;> omega

/-- The walk to the next node ends unless it comes to a property whose length takes it back to
where it was, and what it finds is ahead. -/
theorem fdtNextNode_ends_iff (hprobe : 0 ≤ fdt.fdtRoProbe) (hbase : 28 ≤ fdt.offDtStruct)
    (offset : Int) (hoffset : offset < 2 ^ 31) (depth : Option Int) :
    ((∃ fuel, (fdt.fdtNextNode fuel offset depth).isSome) ↔
      ∀ o : Nat, ∀ depth', ReflTransGen (Goes fdt.nextNodeRound)
        (fdt.nextNodeStart offset, depth) ((o : Int), depth') → ¬ fdt.LengthWraps o) ∧
    ((∃ fuel, (fdt.fdtNextNode fuel offset depth).isSome) →
      (fdt.fdtNextNode (fdt.totalsize + 1) offset depth).isSome) ∧
    ∀ fuel r depth', fdt.fdtNextNode fuel offset depth = some (r, depth') → 0 ≤ r →
      offset < r ∧ r < fdt.totalsize := by
  have htotal := fdt.totalsize_lt_of_probe hprobe
  have hadvances := fdt.nextNodeRound_advances htotal hbase
  have hstart : IsInt (fdt.nextNodeStart offset, depth) := by
    rw [IsInt]
    by_cases hneg : fdt.nextNodeStart offset < 0
    · omega
    · exact (fdt.nextNodeStart_gt htotal hbase hoffset (Int.not_lt.1 hneg)).2
  -- a state at which the loop stands still is a property whose length wraps
  have hstill : (∀ t, ReflTransGen (Goes fdt.nextNodeRound) (fdt.nextNodeStart offset, depth) t →
        ¬ Goes fdt.nextNodeRound t t) ↔
      ∀ o : Nat, ∀ depth', ReflTransGen (Goes fdt.nextNodeRound)
        (fdt.nextNodeStart offset, depth) ((o : Int), depth') → ¬ fdt.LengthWraps o := by
    constructor
    · intro h o depth' hreach hwraps
      have hint := hadvances.reaches hstart hreach
      exact h _ hreach ((fdt.nextNodeRound_still_iff htotal hbase hint).2 ⟨o, rfl, hwraps⟩)
    · rintro h ⟨o', depth'⟩ hreach hgoes
      have hint := hadvances.reaches hstart hreach
      obtain ⟨o, rfl, hwraps⟩ := (fdt.nextNodeRound_still_iff htotal hbase hint).1 hgoes
      exact h o depth' hreach hwraps
  have hends := hadvances.ends_iff hstart (s := (fdt.nextNodeStart offset, depth))
  by_cases hneg : fdt.nextNodeStart offset < 0
  · have hround : (run fdt.nextNodeRound 1 (fdt.nextNodeStart offset, depth)).isSome := by
      rw [run]
      cases hgo : fdt.nextNodeRound (fdt.nextNodeStart offset, depth) with
      | inr r => rfl
      | inl t =>
        have hend := (fdt.nextNodeRound_goes hgo).1
        rw [fdt.fdtNextTag_neg hneg] at hend
        exact absurd rfl hend
    simp only [fdtNextNode_eq_run, if_pos hneg]
    refine ⟨iff_of_true ⟨0, rfl⟩ (hstill.1 (hends.1 ⟨1, hround⟩)), fun _ => rfl, ?_⟩
    intro _ r depth' hr hpos
    cases hr
    omega
  · simp only [fdtNextNode_eq_run, if_neg hneg]
    refine ⟨hends.trans hstill, ?_, ?_⟩
    · intro hsome
      exact hadvances.run_isSome hstart (hends.1 hsome) (by simp only [left]; omega)
    · intro fuel r depth' hrun hpos
      have hgt := (fdt.nextNodeStart_gt htotal hbase hoffset (Int.not_lt.1 hneg)).1
      refine run_invariant fdt.nextNodeRound (p := fun s => IsInt s ∧ offset < s.1)
        (q := fun r => 0 ≤ r.1 → offset < r.1 ∧ r.1 < fdt.totalsize) ?_ ?_ ⟨hstart, hgt⟩ hrun hpos
      · rintro s t ⟨hs, hahead⟩ hgoes
        obtain ⟨hend, hoffset', -⟩ := fdt.nextNodeRound_goes hgoes
        obtain ⟨o, next, ho, hnext, -, -, hle, -⟩ :=
          fdt.fdtNextTag_advances htotal hbase hs (Or.inl hend)
        exact ⟨hadvances.keeps s t hs hgoes, by omega⟩
      · rintro s r ⟨hs, hahead⟩ hreturns hr
        obtain ⟨hle, hlt⟩ := fdt.nextNodeRound_returns htotal hbase hs hreturns hr
        exact ⟨by omega, hlt⟩

/-- A root with a property of the length 0xfffffff4. -/
def wrappingBlob : Dtb where
  addr := 0x82200000
  mem := layOut ([
    -- the header with a structure block at 40
    0xd00dfeed, 64, 40, 64, 64, 17, 16, 0, 0, 24,
    -- the root, the property and the end
    1, 0, 3, 0xfffffff4, 0, 2].flatMap wordBytes)

theorem fdtNextNode_ends_iff_wrapping :
    ¬ ∃ fuel, (wrappingBlob.fdtNextNode fuel 0 none).isSome := by
  have hends := (wrappingBlob.fdtNextNode_ends_iff (by decide +kernel) (by decide +kernel) 0
    (by decide) none).1
  have hstart : wrappingBlob.nextNodeStart 0 = (8 : Nat) := by decide +kernel
  have hwraps : wrappingBlob.LengthWraps 8 := by
    refine ⟨by decide, by decide +kernel, by decide +kernel, ?_⟩
    rw [wrappingBlob.propSize_eq_zero_iff (by decide +kernel)]
    decide +kernel
  intro hreturns
  exact hends.1 hreturns 8 none (hstart ▸ .refl) hwraps

end Dtb

end ZStage.Libfdt
