import Dytan.Instrument.Exactness
import Dytan.Lib.Run
import Dytan.Taint.SubRegister
import Mathlib.Data.Set.BooleanAlgebra
import Mathlib.Order.CompletePartialOrder

/-!
# Saved flags

`PUSHFD` gives the stack bytes it writes the marks of `EFLAGS`, and instructions that write none of
these bytes leave them there (`run_spares`). `POPFD` loads `EFLAGS` where its comment assigns to it,
so it leaves `EFLAGS` as it is (`popfd_flags`).

`flags_survive_iff`: the marks of `EFLAGS` survive the round trip exactly when `POPFD` finds them
there.
-/

namespace Dytan

open Insertion TaintState

variable {w : Nat}

/-- What happens between `PUSHFD` and `POPFD`: an instruction, or a `PushControl` or `PopControl`
call inserted before one. -/
inductive Between (w : Nat)
  | ins (e : Executed w)
  | pushControl (addr : ADDRINT w)
  | popControl (addrs : List (ADDRINT w))

def Between.step (st : TaintState w) : Between w → Option (TaintState w)
  | .ins e => executeINS st e
  | .pushControl addr => st.pushControl addr
  | .popControl addrs => some (st.popControl addrs)

/-- It writes none of `bytes`. -/
def Between.Spares (bytes : Set (ADDRINT w)) : Between w → Prop
  | .ins e => Disjoint e.ctx.writeBytes bytes
  | .pushControl _ | .popControl _ => True

/-- A `PUSHFD` and a `POPFD` that reads the bytes it wrote. -/
structure RoundTrip (push pop : Executed w) : Prop where
  save : push.ins.opcode = .PUSHFD
  restore : pop.ins.opcode = .POPFD
  reads : pop.ins.isMemoryRead = true
  ea : pop.ctx.memoryReadEA = push.ctx.memoryWriteEA
  size : pop.ctx.memoryReadSize = push.ctx.memoryWriteSize
  nonempty : pop.ctx.memoryReadSize ≠ 0

/-- `PUSHFD` in `st₀`, `events` from `st₁` to `st₂`, and `POPFD` in `st₂`. -/
structure SavedRun (push pop : Executed w) (events : List (Between w))
    (st₀ st₁ st₂ st₃ : TaintState w) : Prop where
  save : executeINS st₀ push = some st₁
  between : Lib.run Between.step st₁ events = some st₂
  restore : executeINS st₂ pop = some st₃
  spares : ∀ event ∈ events, event.Spares push.ctx.writeBytes

/-- The marks that `EFLAGS` should have after `POPFD`. -/
def restored (st₀ st₂ : TaintState w) : Set ℕ :=
  st₀.taint.regMarks .EFLAGS ∪ st₀.taint.active ∪ st₂.taint.active

/-- Before `POPFD`, `EFLAGS` has the marks of every byte read and the control taint. Where the bytes
reach the end of memory and `PUSHFD` saves nothing, it has the marks it should have after. -/
def NothingToRestore (pop : Executed w) (st₀ st₂ : TaintState w) : Prop :=
  if RangeWraps pop.ctx.memoryReadEA pop.ctx.memoryReadSize then
    st₂.taint.regMarks .EFLAGS = restored st₀ st₂
  else
    ∀ a ∈ pop.ctx.readBytes, st₂.taint.regMarks .EFLAGS = st₂.taint.memMarks a ∪ st₂.taint.active

section
variable {push pop e : Executed w} {n : Nat} {st st' st₀ st₁ st₂ st₃ : TaintState w} {t : Taint w}
  {events : List (Between w)} {a : ADDRINT w} {bytes : Set (ADDRINT w)}

/-! ## What is not written keeps its marks -/

theorem step_memMarks (ctx : Context w) (h : a ∉ ctx.writeBytes) (c : Call w) :
    (c.step ctx t).memMarks a = t.memMarks a := by
  have hrange : a ∉ ctx.writeRange := notMem_addrRange h
  induction c with
  | setTaintForMemory args => simp [Call.step, Taint.memMarks, Taint.setMem, hrange]
  | clearTaintForMemory => simp [Call.step, Taint.memMarks, Taint.clearMem, hrange]
  | setTaintForRegister dest args => exact Taint.setReg_memMarks ..
  | ifThen check call ih =>
    rw [Call.step]
    split
    · exact ih
    · rfl
  | _ => rfl

theorem stepCalls_memMarks (ctx : Context w) (h : a ∉ ctx.writeBytes) (calls : List (Call w)) :
    (stepCalls ctx t calls).memMarks a = t.memMarks a := by
  induction calls generalizing t with
  | nil => rfl
  | cons c calls ih => rw [stepCalls_cons, ih, step_memMarks ctx h]

theorem pushControl_memMarks (addr : ADDRINT w) : (t.pushControl addr).memMarks = t.memMarks := by
  unfold Taint.pushControl
  split <;> rfl

theorem popControl_memMarks (addrs : List (ADDRINT w)) :
    (t.popControl addrs).memMarks = t.memMarks := by
  induction addrs generalizing t with
  | nil => rfl
  | cons addr addrs ih =>
    unfold Taint.popControl
    split
    · rw [ih]
      rfl
    · rfl

/-- One event. -/
theorem Between.step_spares {event : Between w} (hst : st.WidthOk n) (hspare : event.Spares bytes)
    (h : event.step st = some st') :
    st'.WidthOk n ∧ ∀ a ∈ bytes, st'.taint.memMarks a = st.taint.memMarks a := by
  cases event with
  | ins e =>
    obtain ⟨hok, htaint⟩ := executeINS_taint hst h
    refine ⟨hok, fun a ha => ?_⟩
    rw [htaint, stepCalls_memMarks e.ctx (Set.disjoint_right.1 hspare ha)]
  | pushControl addr =>
    obtain ⟨st₁, hst₁, hok, htaint⟩ := pushControl_gives hst addr
    obtain rfl := Option.some.inj (h.symm.trans hst₁)
    exact ⟨hok, fun a _ => by rw [htaint, pushControl_memMarks]⟩
  | popControl addrs =>
    obtain ⟨st₁, hst₁, hok, htaint⟩ := popControl_gives hst addrs
    obtain rfl := Option.some.inj (h.symm.trans hst₁)
    exact ⟨hok, fun a _ => by rw [htaint, popControl_memMarks]⟩

/-- A run. -/
theorem run_spares (hst : st.WidthOk n) (hspare : ∀ event ∈ events, event.Spares bytes)
    (h : Lib.run Between.step st events = some st') :
    st'.WidthOk n ∧ ∀ a ∈ bytes, st'.taint.memMarks a = st.taint.memMarks a := by
  refine Lib.Along.invariant
    (I := fun t => t.WidthOk n ∧ ∀ a ∈ bytes, t.taint.memMarks a = st.taint.memMarks a)
    (Q := fun _ event => event.Spares bytes) ?_ ⟨hst, fun _ _ => rfl⟩
    ((Lib.along_forall h).2 hspare) h
  rintro t event t' ⟨hok, hsame⟩ hq hstep
  obtain ⟨hok', hkeep⟩ := Between.step_spares hok hq hstep
  exact ⟨hok', fun a ha => (hkeep a ha).trans (hsame a ha)⟩

/-! ## The two instructions -/

/-- `PUSHFD` saves the marks of `EFLAGS`. -/
theorem pushfd_memMarks (hop : push.ins.opcode = .PUSHFD) (hst : st.WidthOk n)
    (h : executeINS st push = some st')
    (hwrap : ¬ RangeWraps push.ctx.memoryWriteEA push.ctx.memoryWriteSize)
    (ha : a ∈ push.ctx.writeBytes) :
    st'.taint.memMarks a = st.taint.regMarks .EFLAGS ∪ st.taint.active := by
  have hcalls : (dataflow push.ins : Insertion w Unit).calls =
      [.taintForRegister .EFLAGS .src, .setTaintForMemory [.src]] := by
    rw [dataflow, hop]
    rfl
  have hin : a ∈ push.ctx.writeRange := (mem_addrRange_bytes hwrap).2 ha
  rw [(executeINS_taint hst h).2, hcalls, stepCalls_cons, stepCalls_cons, stepCalls_nil, Call.step,
    Call.step, load_scratchMarks]
  simp [Taint.memMarks, Taint.setMem, hin]

/-- `POPFD` leaves `EFLAGS` as it is. -/
theorem popfd_flags (hop : pop.ins.opcode = .POPFD) (hst : st.WidthOk n)
    (h : executeINS st pop = some st') :
    st'.taint.regMarks .EFLAGS = st.taint.regMarks .EFLAGS := by
  have hflow : (dataflow pop.ins : Insertion w Unit) = instrumentPOPFD pop.ins := by
    rw [dataflow, hop]
    rfl
  rw [(executeINS_taint hst h).2, hflow, instrumentPOPFD, needRead]
  cases pop.ins.isMemoryRead <;> rfl

/-- When `POPFD` comes, the stack bytes still have what `PUSHFD` saved. -/
theorem SavedRun.saved (h : RoundTrip push pop) (hst : st₀.WidthOk n)
    (hrun : SavedRun push pop events st₀ st₁ st₂ st₃)
    (hwrap : ¬ RangeWraps pop.ctx.memoryReadEA pop.ctx.memoryReadSize)
    (ha : a ∈ pop.ctx.readBytes) :
    st₂.taint.memMarks a = st₀.taint.regMarks .EFLAGS ∪ st₀.taint.active := by
  have hok := (executeINS_taint hst hrun.save).1
  have hbytes : pop.ctx.readBytes = push.ctx.writeBytes := by
    rw [Context.readBytes, Context.writeBytes, h.ea, h.size]
  rw [hbytes] at ha
  rw [(run_spares hok hrun.spares hrun.between).2 a ha]
  exact pushfd_memMarks h.save hst hrun.save (by rwa [← h.ea, ← h.size]) ha

end

/-- **Saved flags** survive exactly when there is nothing to restore. -/
theorem flags_survive_iff {push pop : Executed w} {events : List (Between w)} {n : Nat}
    {st₀ st₁ st₂ st₃ : TaintState w} (h : RoundTrip push pop) (hst : st₀.WidthOk n)
    (hrun : SavedRun push pop events st₀ st₁ st₂ st₃) :
    st₃.taint.regMarks .EFLAGS = restored st₀ st₂ ↔ NothingToRestore pop st₀ st₂ := by
  have hok := (executeINS_taint hst hrun.save).1
  have hok₂ := (run_spares hok hrun.spares hrun.between).1
  rw [popfd_flags h.restore hok₂ hrun.restore, NothingToRestore]
  split
  · exact Iff.rfl
  rename_i hwrap
  have hstart : pop.ctx.memoryReadEA ∈ pop.ctx.readBytes := start_mem_bytesAt h.nonempty
  constructor
  · intro hflags a ha
    rw [hflags, restored, hrun.saved h hst hwrap ha]
  · intro hall
    rw [hall _ hstart, restored, hrun.saved h hst hwrap hstart]

/-- `PUSHFD`, `CLD` and `POPFD` with `ESP` at `0x1004`. -/
def savePUSHFD : Executed 32 :=
  ⟨⟨.PUSHFD, [], false, true, false, false, false, ""⟩,
    ⟨0, 0, 0, 0x1000, 4, fun _ => 0, fun _ => 0⟩⟩

def clearCLD : Executed 32 :=
  ⟨⟨.CLD, [], false, false, false, false, false, ""⟩, ⟨0, 0, 0, 0, 0, fun _ => 0, fun _ => 0⟩⟩

def restorePOPFD : Executed 32 :=
  ⟨⟨.POPFD, [], true, false, false, false, false, ""⟩,
    ⟨0x1000, 0, 4, 0, 0, fun _ => 0, fun _ => 0⟩⟩

theorem savePUSHFD_roundTrip : RoundTrip savePUSHFD restorePOPFD :=
  ⟨rfl, rfl, rfl, rfl, rfl, by decide⟩

theorem clearCLD_spares : Between.Spares savePUSHFD.ctx.writeBytes (.ins clearCLD) := by
  have hnone : clearCLD.ctx.writeBytes = ∅ := writeBytes_empty rfl
  rw [Between.Spares, hnone]
  exact Set.empty_disjoint _

/-- The run `PUSHFD; CLD; POPFD`, and what `CLD` does. -/
theorem exists_savedRun {n : Nat} {st₀ : TaintState 32} (hst : st₀.WidthOk n) :
    ∃ st₁ st₂ st₃, SavedRun savePUSHFD restorePOPFD [.ins clearCLD] st₀ st₁ st₂ st₃ ∧
      st₂.taint = (stepCalls savePUSHFD.ctx st₀.taint
        (dataflow savePUSHFD.ins).calls).clearReg .EFLAGS := by
  obtain ⟨st₁, h1, hok₁, ht₁⟩ := executeINS_gives (e := savePUSHFD) hst nofun
  obtain ⟨st₂, h2, hok₂, ht₂⟩ := executeINS_gives (e := clearCLD) hok₁ nofun
  obtain ⟨st₃, h3, -⟩ := executeINS_gives (e := restorePOPFD) hok₂ nofun
  refine ⟨st₁, st₂, st₃, ⟨h1, ?_, h3, ?_⟩, ?_⟩
  · have hstep : Between.step st₁ (.ins clearCLD) = some st₂ := h2
    rw [Lib.run_cons_of hstep, Lib.run_nil]
  · simpa using clearCLD_spares
  · rw [ht₂, ← ht₁]
    rfl

theorem flags_survive_iff_CLD :
    ∃ st₀ st₁ st₂ st₃, Marked {.EFLAGS} {0x1000} true st₀ ∧
      SavedRun savePUSHFD restorePOPFD [.ins clearCLD] st₀ st₁ st₂ st₃ ∧
      (st₃.taint.regMarks .EFLAGS = restored st₀ st₂ ↔ NothingToRestore restorePOPFD st₀ st₂) := by
  obtain ⟨st₀, hst⟩ := exists_marked {.EFLAGS} {(0x1000 : ADDRINT 32)} true
  obtain ⟨st₁, st₂, st₃, hrun, -⟩ := exists_savedRun hst.ok
  exact ⟨st₀, st₁, st₂, st₃, hst, hrun, flags_survive_iff savePUSHFD_roundTrip hst.ok hrun⟩

/-- After `PUSHFD; CLD; POPFD` the marks of `EFLAGS` are gone. -/
theorem popfd_restores_nothing :
    ¬ ∀ (push pop : Executed 32) (events : List (Between 32)) (n : Nat)
      (st₀ st₁ st₂ st₃ : TaintState 32), RoundTrip push pop → st₀.WidthOk n →
      SavedRun push pop events st₀ st₁ st₂ st₃ →
      st₃.taint.regMarks .EFLAGS = restored st₀ st₂ := by
  intro h
  obtain ⟨st₀, hst⟩ := exists_marked {.EFLAGS} (∅ : Set (ADDRINT 32)) false
  obtain ⟨st₁, st₂, st₃, hrun, hcld⟩ := exists_savedRun hst.ok
  have hflags := h _ _ _ 2 st₀ st₁ st₂ st₃ savePUSHFD_roundTrip hst.ok hrun
  have hok₂ := (run_spares (executeINS_taint hst.ok hrun.save).1 hrun.spares hrun.between).1
  have hpost : st₂.taint.regMarks .EFLAGS = ∅ := by
    have hentry : (st₀.taint.reg .EFLAGS).isSome := by
      rw [hst.reg, if_pos (Set.mem_singleton _)]
      rfl
    rw [hcld, regMarks_clearReg, if_pos ⟨by decide, hentry⟩]
    exact hst.active
  rw [popfd_flags rfl hok₂ hrun.restore, hpost] at hflags
  have hzero : (0 : ℕ) ∈ restored st₀ st₂ := .inl (.inl (by simp [hst.regMarks]))
  rw [← hflags] at hzero
  exact hzero

end Dytan
