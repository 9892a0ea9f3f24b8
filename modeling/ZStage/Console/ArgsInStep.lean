import Mathlib.Algebra.Group.Even
import ZStage.Console.Format

/-!
Conversions and arguments. `print` counts argument bytes in `acnt`, 4 for an `int` and 8
for a word, although every argument has a slot of 8 bytes; before an "ll" conversion it
drops arguments until the count is a multiple of 8. So conversions and arguments stay in
step exactly when every "ll" conversion comes after an even number of `int` conversions.
-/

namespace ZStage.Console

/-- The k-th slot is read once, by the k-th conversion, for the first `n` slots. -/
def readsInStep (n : Nat) : List VaRead := (List.range n).map fun k => ⟨k, some k⟩

/-- `n` conversions have read `n` arguments. -/
structure VaList.InStep (n : Nat) (va : VaList) : Prop where
  ap : va.ap = n
  convs : va.convs = n
  reads : va.reads = readsInStep n

/-- Every "ll" conversion comes after an even number of conversions of an `int`. -/
def EvenBefore (cs : List Conv) : Prop :=
  ∀ pre conv post, cs = pre ++ conv :: post → conv.longLong → Even (pre.countP (·.words = 1))

/-- Every "ll" conversion finds `acnt` a multiple of 8, starting from `acnt`. -/
def AlignedFrom (acnt : Nat) : List Conv → Prop
  | [] => True
  | conv :: rest =>
    (conv.longLong → acnt % 8 = 0) ∧ AlignedFrom (acnt + 4 * conv.words) rest

theorem alignedFrom_iff {acnt : Nat} {cs : List Conv} (h : acnt % 4 = 0) :
    AlignedFrom acnt cs ↔ ∀ pre conv post, cs = pre ++ conv :: post → conv.longLong →
      (acnt / 4 + pre.countP (·.words = 1)) % 2 = 0 := by
  have hwords (conv : Conv) : conv.words = 1 ∨ conv.words % 2 = 0 := by
    cases conv <;> decide
  induction cs generalizing acnt with
  | nil =>
    refine iff_of_true trivial fun pre conv post heq => ?_
    cases pre <;> cases heq
  | cons head rest ih =>
    have hrest := @ih (acnt + 4 * head.words) (by omega)
    refine (and_congr_right fun _ => hrest).trans ?_
    clear hrest
    constructor
    · rintro ⟨hhead, hrest⟩ pre conv post heq hlong
      cases pre with
      | nil =>
        cases heq
        have := hhead hlong
        simp only [List.countP_nil]
        omega
      | cons first pre =>
        cases heq
        have := hrest pre conv post rfl hlong
        rcases hwords head with hw | hw
        · rw [List.countP_cons_of_pos (by simpa using hw)]
          omega
        · rw [List.countP_cons_of_neg (by simp; omega)]
          omega
    · intro hall
      refine ⟨fun hlong => ?_, fun pre conv post heq hlong => ?_⟩
      · have := hall [] head rest rfl hlong
        simp only [List.countP_nil] at this
        omega
      · have := hall (head :: pre) conv post (by rw [heq]; rfl) hlong
        rcases hwords head with hw | hw
        · rw [List.countP_cons_of_pos (by simpa using hw)] at this
          omega
        · rw [List.countP_cons_of_neg (by simp; omega)] at this
          omega

theorem evenBefore_iff (cs : List Conv) : AlignedFrom 0 cs ↔ EvenBefore cs := by
  rw [alignedFrom_iff rfl, EvenBefore]
  simp only [Nat.zero_div, Nat.zero_add, Nat.even_iff]

theorem VaList.align_of_aligned (va : VaList) (h : va.acnt % 8 = 0) : va.align = va := by
  rw [VaList.align, dif_pos h]

theorem VaList.InStep.after {n : Nat} {va : VaList} (h : va.InStep n) {conv : Conv}
    (hconv : conv.longLong → va.acnt % 8 = 0) :
    (conv.after va).InStep (n + 1) ∧ (conv.before va).ap = n ∧
      (conv.after va).acnt = va.acnt + 4 * conv.words := by
  have hbefore : conv.before va = va.conversion := by
    rw [Conv.before]
    split
    · next hlong =>
      exact va.conversion.align_of_aligned (hconv hlong)
    · rfl
  rw [Conv.after, hbefore]
  refine ⟨⟨congrArg (· + 1) h.ap, congrArg (· + 1) h.convs, ?_⟩, h.ap, rfl⟩
  show va.reads ++ [⟨va.ap, some (va.convs + 1 - 1)⟩] = _
  rw [h.reads, h.ap, h.convs, Nat.add_sub_cancel, readsInStep, readsInStep, List.range_succ,
    List.map_append]
  rfl

theorem VaList.align_reads (va : VaList) : va.reads <+: va.align.reads := by
  induction va using VaList.align.induct with
  | case1 va h =>
    simp only [va.align_of_aligned h, List.prefix_rfl]
  | case2 va h ih =>
    rw [VaList.align, dif_neg h]
    exact (List.prefix_append va.reads [⟨va.ap, none⟩]).trans ih

theorem Conv.after_reads (conv : Conv) (va : VaList) :
    (conv.before va).reads <+: (conv.after va).reads ∧ va.reads <+: (conv.before va).reads := by
  refine ⟨List.prefix_append _ _, ?_⟩
  rw [Conv.before]
  split
  · exact va.conversion.align_reads
  · exact List.prefix_rfl

theorem afterAll_reads (cs : List Conv) (va : VaList) : va.reads <+: (afterAll cs va).reads := by
  induction cs generalizing va with
  | nil => exact List.prefix_rfl
  | cons conv rest ih =>
    have hstep := conv.after_reads va
    exact (hstep.2.trans hstep.1).trans (ih (conv.after va))

/-- An "ll" conversion that finds `acnt` unaligned drops an argument. -/
theorem dropped_mem {va : VaList} {conv : Conv} (hlong : conv.longLong)
    (hacnt : ¬va.acnt % 8 = 0) : ⟨va.ap, none⟩ ∈ (conv.before va).reads := by
  rw [Conv.before, if_pos hlong, VaList.align,
    dif_neg (show ¬va.conversion.acnt % 8 = 0 from hacnt)]
  exact va.conversion.drop.align_reads.subset (List.mem_append_right _ List.mem_cons_self)

/-- From a state in step, the rest of the conversions stays in step exactly when no "ll"
conversion finds `acnt` unaligned. -/
theorem afterAll_reads_iff (cs : List Conv) {n : Nat} {va : VaList} (h : va.InStep n) :
    (afterAll cs va).reads = readsInStep (n + cs.length) ↔ AlignedFrom va.acnt cs := by
  induction cs generalizing n va with
  | nil => exact iff_of_true h.reads trivial
  | cons conv rest ih =>
    by_cases hconv : conv.longLong → va.acnt % 8 = 0
    · obtain ⟨hafter, hap, hacnt⟩ := h.after hconv
      have hrest := ih hafter
      rw [hacnt, Nat.add_assoc, Nat.add_comm 1] at hrest
      rw [AlignedFrom, ← hrest, afterAll, List.length_cons]
      exact (and_iff_right hconv).symm
    · obtain ⟨hlong, hacnt⟩ := Classical.not_imp.1 hconv
      refine iff_of_false (fun hreads => ?_) fun haligned => hconv haligned.1
      have hmem : ⟨va.ap, none⟩ ∈ (afterAll (conv :: rest) va).reads :=
        ((conv.after_reads va).1.trans (afterAll_reads rest _)).subset (dropped_mem hlong hacnt)
      rw [hreads, readsInStep, List.mem_map] at hmem
      obtain ⟨k, -, hk⟩ := hmem
      cases hk

theorem fetched_of_aligned (args : Args) (cs : List Conv) {n : Nat} {va : VaList}
    (h : va.InStep n) (haligned : AlignedFrom va.acnt cs) :
    fetched args cs va = (List.range' n cs.length).map args.slots := by
  induction cs generalizing n va with
  | nil => rfl
  | cons conv rest ih =>
    obtain ⟨hafter, hap, hacnt⟩ := h.after haligned.1
    have hrest := ih hafter (hacnt ▸ haligned.2)
    rw [fetched, hap, hrest, List.length_cons, List.range'_succ, List.map_cons]

/-- The text of a format whose k-th conversion renders the k-th argument; a letter that is
echoed is printed behind its conversion. -/
def textInStep (args : Args) (items : List Item) : List UInt8 :=
  itemsText Conv.echo args items ((List.range (convs items).length).map args.slots)

/-- On every destination, the k-th conversion renders the k-th argument, and no argument is
dropped or read twice, exactly when every "ll" conversion comes after an even number of
conversions of an `int`. -/
theorem args_in_step_iff {σ : Type} (d : Dest σ) (args : Args) (items : List Item) (out : σ) :
    ∃ st, print d args (formatOf items) out = some st ∧
      (Printed d out (textInStep args items) st.out ∧
          st.va.reads = readsInStep (convs items).length ↔
        EvenBefore (convs items)) := by
  have hrun := print_tracks (printed_tracks d out) args (formatOf items) out .start
  have htext := printLoop_items args items [] 0 .start
  have hstart : int 0 = 0 := rfl
  rw [hstart] at htext
  rw [print, htext] at hrun
  generalize print d args (formatOf items) out = result at hrun
  cases hrun with
  | @some a st hst =>
    have hinit : VaList.start.InStep 0 := ⟨rfl, rfl, rfl⟩
    have hreads := afterAll_reads_iff (convs items) hinit
    rw [Nat.zero_add] at hreads
    refine ⟨st, rfl, ?_⟩
    rw [← hst.va, ← evenBefore_iff, hreads]
    refine and_iff_right_of_imp fun haligned => ?_
    have hfetched := fetched_of_aligned args (convs items) hinit haligned
    rw [← List.range_eq_range'] at hfetched
    rw [textInStep, ← hfetched]
    exact hst.out

/-- After one `int` an "ll" conversion drops the argument that it should render. -/
theorem argument_dropped :
    let args : Args := ⟨fun i => UInt64.ofNat (i + 1), fun _ => ⟨[], List.not_mem_nil⟩⟩
    let items : List Item := [.conversion ⟨false, false, 0, [], .d, by decide⟩,
      .conversion ⟨false, false, 0, [], .llx, by decide⟩]
    (print textDest args (formatOf items) []).map (fun st => (st.out, st.va.reads)) =
        some (chars "13", [⟨0, some 0⟩, ⟨1, none⟩, ⟨2, some 1⟩]) ∧
      textInStep args items = chars "12" := by
  decide +kernel

end ZStage.Console
