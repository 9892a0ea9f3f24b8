import ZStage.Head.Image

/-!
The instructions of head.S, from `_start` to the jump into the next booting
stage. A program point holds at most one access to memory, and the register
instructions around it run with it: they touch nothing another hart can see.
Each point states what it asks of the memory (`Action`), so the same code is run
by one hart alone and by many harts on one memory.

`zstage_main` is one action here (`Action.call`); the hart comes back from it at
the point after the call, with every caller-saved register changed at will.
-/

namespace ZStage.Head

open ZStage.Lib.ByteMemory

variable {b : Nat}

/-- Program points of head.S. A point with an address is a jump through a
register whose target has been computed but not taken yet. -/
inductive Pc (b : Nat)
  | start
  | saveLoadStart
  | relocate
  | relocateSize
  | relocateLoadStart
  | copyToLowerLoad
  | copyToLowerStore
  | copyToUpperLoad
  | copyToUpperStore
  | relocateJump (target : BitVec (8 * b))
  | waitRunAddr
  | waitStatus
  | waitJump (target : BitVec (8 * b))
  | relocateDone
  | doneLoadStart
  | doneStatus
  | doneFence
  | saveBootArg1
  | bssZero
  | stackTop
  | loadBootArg1
  | main
  | spinNextRun
  | spinStore
  | spinFence
  | jumpFdt
  | jumpRun
  | nextStage (target : BitVec (8 * b))
  | secondarySpinLoop
  | secondaryFdt
  | secondaryNextStage (target : BitVec (8 * b))
  | startHang
  | astray (target : BitVec (8 * b))
  deriving DecidableEq

def Pc.relocating : Pc b → Bool
  | .relocate | .relocateSize | .relocateLoadStart
  | .copyToLowerLoad | .copyToLowerStore | .copyToUpperLoad | .copyToUpperStore => true
  | _ => false

/-- The points of the copy loops, with the jump that ends them. -/
def Pc.copying : Pc b → Bool
  | .copyToLowerLoad | .copyToLowerStore | .copyToUpperLoad | .copyToUpperStore
  | .relocateJump _ => true
  | _ => false

/-- A hart: the copy of the image it executes, its program point and the
registers that head.S uses. -/
structure Hart (b : Nat) where
  base : BitVec (8 * b)
  pc : Pc b
  t0 : BitVec (8 * b)
  t1 : BitVec (8 * b)
  t2 : BitVec (8 * b)
  t3 : BitVec (8 * b)
  t4 : BitVec (8 * b)
  t5 : BitVec (8 * b)
  sp : BitVec (8 * b)
  a0 : BitVec (8 * b)
  a1 : BitVec (8 * b)
  a2 : BitVec (8 * b)
  mhartid : BitVec (8 * b)

inductive Action (b : Nat)
  | goto (h : Hart b)
  | load (a : BitVec (8 * b)) (k : BitVec (8 * b) → Hart b)
  | store (a v : BitVec (8 * b)) (h : Hart b)
  | amoAddW (a : BitVec (8 * b)) (v : BitVec 32) (k : BitVec 32 → Hart b)
  | fence (h : Hart b)
  | call (h : Hart b)
  | halt

namespace Hart

def la (img : Image b) (h : Hart b) (s : Symbol) : BitVec (8 * b) :=
  img.addr h.base s

/-- The macro `BRANGE`: `start ≤ check < end` in the signed order of `blt` and
`bge`. -/
def brange (startReg endReg checkReg : BitVec (8 * b)) : Bool :=
  !checkReg.slt startReg && !endReg.sle checkReg

/-- `_relocate_copy_to_lower` up to the loop. -/
def relocateCopyToLower (img : Image b) (h : Hart b) : Hart b :=
  if h.t1.sle h.t2 then { h with pc := .copyToLowerLoad }
  else
    let h := { h with t3 := h.la img .relocateLottery }
    if brange h.t2 h.t1 h.t3 then { h with pc := .startHang }
    else
      let h := { h with t3 := h.la img .bootStatus }
      if brange h.t2 h.t1 h.t3 then { h with pc := .startHang }
      else
        let h := { h with t3 := h.la img .relocate, t5 := h.la img .relocateDone }
        if brange h.t2 h.t1 h.t3 || brange h.t2 h.t1 h.t5 || brange h.t3 h.t5 h.t2 then
          { h with pc := .startHang }
        else { h with pc := .copyToLowerLoad }

/-- `_relocate_copy_to_upper` up to the loop. -/
def relocateCopyToUpper (img : Image b) (h : Hart b) : Hart b :=
  if h.t3.sle h.t0 then { h with pc := .copyToUpperLoad }
  else
    let h := { h with t2 := h.la img .relocateLottery }
    if brange h.t0 h.t3 h.t2 then { h with pc := .startHang }
    else
      let h := { h with t2 := h.la img .bootStatus }
      if brange h.t0 h.t3 h.t2 then { h with pc := .startHang }
      else
        let h := { h with t2 := h.la img .relocate, t5 := h.la img .relocateDone }
        if brange h.t0 h.t3 h.t2 || brange h.t0 h.t3 h.t5 || brange h.t2 h.t5 h.t0 then
          { h with pc := .startHang }
        else { h with pc := .copyToUpperLoad }

/-- `_relocate` after its three loads. -/
def relocateBranch (img : Image b) (h : Hart b) : Hart b :=
  let h := { h with t3 := h.t2 + h.t1, t1 := h.t1 + h.t0 }
  if h.t0 = h.t2 then { h with pc := .relocateDone }
  else
    -- t4 is the run address of _relocate_done
    let h := { h with t4 := h.la img .relocateDone - h.t2 + h.t0 }
    if h.t2.slt h.t0 then relocateCopyToUpper img h
    else relocateCopyToLower img h

/-- The rest of `_relocate_copy_to_lower_loop` after its store. -/
def copyToLowerNext (h : Hart b) : Hart b :=
  let h := { h with t0 := h.t0 + BitVec.ofNat (8 * b) b, t2 := h.t2 + BitVec.ofNat (8 * b) b }
  if h.t0.slt h.t1 then { h with pc := .copyToLowerLoad }
  else { h with pc := .relocateJump h.t4 }

def copyToUpperNext (h : Hart b) : Hart b :=
  if h.t0.slt h.t1 then { h with pc := .copyToUpperLoad }
  else { h with pc := .relocateJump h.t4 }

def bssZeroNext (h : Hart b) : Hart b :=
  let h := { h with t1 := h.t1 + BitVec.ofNat (8 * b) b }
  if h.t1.slt h.t2 then { h with pc := .bssZero } else { h with pc := .stackTop }

/-- The hart after a jump through a register: the two labels that head.S jumps
to in this way are entered in the run copy, any other address is not code that
this file knows. -/
def land (img : Image b) (h : Hart b) (target : BitVec (8 * b)) : Hart b :=
  if target = img.addr img.runAddr .relocateDone then
    { h with base := img.runAddr, pc := .relocateDone }
  else if target = img.addr img.runAddr .secondarySpinLoop then
    { h with base := img.runAddr, pc := .secondarySpinLoop }
  else { h with pc := .astray target }

/-- The next access of a hart, with the hart after it. -/
def action (img : Image b) (h : Hart b) : Action b :=
  match h.pc with
  | .start =>
    .amoAddW (h.la img .relocateLottery) 1 fun old =>
      let h := { h with t0 := old.signExtend (8 * b), t1 := 1 }
      if h.t0 ≠ 0#(8 * b) then { h with pc := .waitRunAddr } else { h with pc := .saveLoadStart }
  | .saveLoadStart =>
    let h := { h with t0 := h.la img .loadStart, t1 := h.la img .start }
    .store h.t0 h.t1 { h with pc := .relocate }
  | .relocate =>
    .load (h.la img .headerImageRunAddr) fun v => { h with t0 := v, pc := .relocateSize }
  | .relocateSize =>
    .load (h.la img .headerImageSize) fun v => { h with t1 := v, pc := .relocateLoadStart }
  | .relocateLoadStart =>
    .load (h.la img .loadStart) fun v => relocateBranch img { h with t2 := v }
  | .copyToLowerLoad =>
    .load h.t2 fun v => { h with t3 := v, pc := .copyToLowerStore }
  | .copyToLowerStore =>
    .store h.t0 h.t3 h.copyToLowerNext
  | .copyToUpperLoad =>
    let h := { h with t3 := h.t3 - BitVec.ofNat (8 * b) b, t1 := h.t1 - BitVec.ofNat (8 * b) b }
    .load h.t3 fun v => { h with t2 := v, pc := .copyToUpperStore }
  | .copyToUpperStore =>
    .store h.t1 h.t2 h.copyToUpperNext
  | .relocateJump target => .goto (h.land img target)
  | .waitRunAddr =>
    .load (h.la img .headerImageRunAddr) fun v =>
      let h := { h with t0 := h.la img .start, t1 := v }
      if h.t0 = h.t1 then { h with pc := .secondarySpinLoop }
      else
        { h with
          t2 := h.la img .bootStatus
          t3 := h.la img .secondarySpinLoop - h.t0 + h.t1
          pc := .waitStatus }
  | .waitStatus =>
    .load h.t2 fun v =>
      let h := { h with t4 := 1, t5 := v }
      if h.t5.slt h.t4 then h else { h with pc := .waitJump h.t3 }
  | .waitJump target => .goto (h.land img target)
  | .relocateDone =>
    .load (h.la img .headerImageRunAddr) fun v =>
      { h with t0 := h.la img .bootStatus, t1 := v, pc := .doneLoadStart }
  | .doneLoadStart =>
    .load (h.la img .loadStart) fun v =>
      { h with t2 := v, t0 := h.t0 - h.t1 + v, t1 := 1, pc := .doneStatus }
  | .doneStatus => .store h.t0 h.t1 { h with pc := .doneFence }
  | .doneFence => .fence { h with pc := .saveBootArg1 }
  | .saveBootArg1 =>
    .store (h.la img .bootArg1) h.a1
      { h with
        t0 := h.la img .bootArg1
        t1 := h.la img .bssStart
        t2 := h.la img .bssEnd
        pc := .bssZero }
  | .bssZero =>
    .store h.t1 0 h.bssZeroNext
  | .stackTop =>
    .load (h.la img .stackTop) fun v =>
      { h with t0 := h.la img .stackTop, sp := v, pc := .loadBootArg1 }
  | .loadBootArg1 =>
    .load (h.la img .bootArg1) fun v =>
      { h with a0 := v, a1 := h.la img .start, a2 := h.la img .blobTable, pc := .main }
  | .main => .call { h with pc := if img.noSpin then .spinNextRun else .jumpFdt }
  | .spinNextRun =>
    .load (h.la img .headerNextRunAddr) fun v =>
      { h with t0 := h.la img .spinAddr, t1 := v, pc := .spinStore }
  | .spinStore => .store h.t0 h.t1 { h with pc := .spinFence }
  | .spinFence => .fence { h with pc := .jumpFdt }
  | .jumpFdt =>
    .load (h.la img .headerNextFdtAddr) fun v =>
      { h with a0 := h.mhartid, t0 := h.la img .headerNextFdtAddr, a1 := v, pc := .jumpRun }
  | .jumpRun =>
    .load (h.la img .headerNextRunAddr) fun v => { h with t0 := v, pc := .nextStage v }
  | .secondarySpinLoop =>
    .load (h.la img .spinAddr) fun v =>
      let h := { h with t0 := h.la img .spinAddr, t1 := v }
      if h.t1 = 0#(8 * b) then h else { h with pc := .secondaryFdt }
  | .secondaryFdt =>
    .load (h.la img .headerNextFdtAddr) fun v =>
      { h with
        a0 := h.mhartid
        t0 := h.la img .headerNextFdtAddr
        a1 := v
        pc := .secondaryNextStage h.t1 }
  | .startHang => .goto h
  | .nextStage _ | .secondaryNextStage _ | .astray _ => .halt

theorem relocateBranch_target (img : Image b) (h : Hart b) :
    (relocateBranch img h).base = h.base ∧
      (relocateBranch img h).pc ∈
        [Pc.relocateDone, .startHang, .copyToLowerLoad, .copyToUpperLoad] := by
  unfold relocateBranch relocateCopyToUpper relocateCopyToLower
  simp only [apply_ite Hart.base, apply_ite Hart.pc, ite_self, true_and]
  split_ifs <;> simp

theorem bssZeroNext_cases {img : Image b} {h : Hart b} {j : Nat} (hbase : h.base = img.runAddr)
    (ht1 : h.t1 = img.runAddr + BitVec.ofNat (8 * b) (img.bssStart + b * j))
    (ht2 : h.t2 = img.addr img.runAddr .bssEnd) (hj : img.bssStart + b * j < img.bssEnd) :
    h.bssZeroNext.base = img.runAddr ∧
      ((h.bssZeroNext.pc = .bssZero ∧
          h.bssZeroNext.t1 = img.runAddr + BitVec.ofNat (8 * b) (img.bssStart + b * (j + 1)) ∧
          h.bssZeroNext.t2 = img.addr img.runAddr .bssEnd ∧
          img.bssStart + b * (j + 1) < img.bssEnd) ∨
        h.bssZeroNext.pc = .stackTop) := by
  have hnext : h.t1 + BitVec.ofNat (8 * b) b =
      img.runAddr + BitVec.ofNat (8 * b) (img.bssStart + b * (j + 1)) := by
    rw [ht1, add_assoc, ← BitVec.ofNat_add, Nat.mul_succ, Nat.add_assoc]
  have hfit := bss_next img hj
  simp only [bssZeroNext, hnext, ht2]
  split
  · rename_i hslt
    -- at the end of bss the two registers agree, and the branch is not taken
    have hne : img.bssStart + b * (j + 1) ≠ img.bssEnd := by
      rintro heq
      rw [heq, BitVec.slt_iff_toInt_lt] at hslt
      exact absurd hslt (lt_irrefl _)
    have hlt : img.bssStart + b * (j + 1) < img.bssEnd := by
      rw [Nat.mul_succ] at hne ⊢
      omega
    exact ⟨hbase, Or.inl ⟨rfl, rfl, rfl, hlt⟩⟩
  · exact ⟨hbase, Or.inr rfl⟩

theorem main_of_call {img : Image b} {h k : Hart b} (hcall : h.action img = .call k) :
    h.pc = .main := by
  unfold Hart.action at hcall
  split at hcall <;> first | assumption | cases hcall

theorem fence_points {img : Image b} {h k : Hart b} (hfence : h.action img = .fence k) :
    h.pc = .doneFence ∨ h.pc = .spinFence := by
  unfold Hart.action at hfence
  split at hfence <;> first | exact Or.inl ‹_› | exact Or.inr ‹_› | cases hfence

theorem start_of_amo {img : Image b} {h : Hart b} {a : BitVec (8 * b)} {v : BitVec 32}
    {k : BitVec 32 → Hart b} (hamo : h.action img = .amoAddW a v k) : h.pc = .start := by
  unfold Hart.action at hamo
  split at hamo <;> first | assumption | cases hamo

end Hart

/-- An action on sequentially consistent memory. The call of `zstage_main` is
left to the system the hart is part of. -/
def Action.exec (m : Memory (8 * b)) : Action b → Option (Hart b × Memory (8 * b))
  | .goto h => some (h, m)
  | .load a k => some (k (loadWord m a), m)
  | .store a v h => some (h, storeWord m a v)
  | .amoAddW a v k =>
    let old := BitVec.ofNat 32 (loadLE m a 4)
    some (k old, storeLE m a 4 (old + v).toNat)
  | .fence h => some (h, m)
  | .call _ => none
  | .halt => none

def Hart.step (img : Image b) (s : Hart b × Memory (8 * b)) :
    Option (Hart b × Memory (8 * b)) :=
  (s.1.action img).exec s.2

end ZStage.Head
