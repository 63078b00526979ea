import Dytan.IMA.Erasure
import Dytan.IMA.Progress

/-!
# The pass preserves what a module does

`MemoryState.executions_iff`: what is seen of the executions of an instrumented module, and the
states they end in without what was inserted, are the executions of the module before the pass. So
the pass adds nothing to what a module does, and takes nothing away: before each step of the source,
what is inserted there is executed (`MemoryState.Ready.reaches_source`).
-/

namespace Dytan.IMA

/-- A function of the module, as it is before the pass, is about to run. -/
def SourceState.Starts (m : Module) (s : SourceState) : Prop :=
  ∃ name arguments fr, m.sourceEntry name arguments = some fr ∧ s.frames = [fr]

namespace MemoryState

variable {m : Module} {address : String → BitVec 32} {t t' : MemoryState} {fr : Frame}
  {frames : List Frame} {event : Choice × Effect} {s : SourceState}

theorem seen_inserted {i : Instruction} {rest : List Instruction}
    (hf : t.state.frames = fr :: frames) (hr : fr.rest = i :: rest) (hi : i.fromSource = false) :
    t.seen event = [] := by
  have hnext : t.state.next = some (fr, i) := by
    rw [State.next, hf]
    simp [hr]
  simp [seen, hnext, hi]

theorem seen_source {x : Instruction} {rest : List Instruction}
    (hf : t.state.frames = fr :: frames) (hr : fr.rest = x :: rest) (hx : x.fromSource = true) :
    t.seen event = [event] := by
  have hnext : t.state.next = some (fr, x) := by
    rw [State.next, hf]
    simp [hr]
  simp [seen, hnext, hx]

/-- What is inserted before the next instruction of the source can be executed. -/
theorem Ready.reaches_source (hm : m.Verified) (hg : m.SizesGiven) (h : t.Ready address)
    (hf : t.state.frames = fr :: frames) (hne : fr.rest.filter Instruction.fromSource ≠ []) :
    ∃ events t' fr' x rest, Lib.run (MemoryState.step m address) t events = some t' ∧
      Lib.emitted (MemoryState.step m address) seen t events = [] ∧ t'.Ready address ∧
      t'.erase = t.erase ∧ t'.state.frames = fr' :: frames ∧ fr'.rest = x :: rest ∧
      x.fromSource = true := by
  -- by induction on what is left of the block
  generalize hr : fr.rest = rest at hne
  induction rest generalizing t fr with
  | nil => exact absurd rfl hne
  | cons i rest ih =>
    cases hi : i.fromSource with
    | true => exact ⟨[], t, fr, i, rest, rfl, rfl, h, rfl, hf, hr, hi⟩
    | false =>
      obtain ⟨event, t₁, fr₁, hs, hf₁, hr₁⟩ := h.progress hf hr hi m
      have hrest : rest.filter Instruction.fromSource ≠ [] := by
        simpa [List.filter_cons, hi] using hne
      obtain ⟨events, t', fr', x, rest', hrun, hout, hready, herase, hstate⟩ :=
        ih (h.step hm hg hs) hf₁ hr₁ hrest
      refine ⟨event :: events, t', fr', x, rest', ?_, ?_, hready, ?_, hstate⟩
      · rw [Lib.run_cons_of hs, hrun]
      · rw [Lib.emitted_cons_of hs, hout, seen_inserted hf hr hi]
        rfl
      · rw [herase, erase_inserted h.invariant hf hr hi hs]

/-- A step of the module before the pass is a step of the instrumented one, after what is
inserted. -/
theorem Ready.reflects (hm : m.Verified) (hg : m.SizesGiven) (h : t.Ready address)
    (hs : SourceState.step m address t.erase event = some s) :
    ∃ events t', Lib.run (MemoryState.step m address) t events = some t' ∧
      Lib.emitted (MemoryState.step m address) seen t events = [event] ∧ t'.Ready address ∧
      t'.erase = s := by
  obtain ⟨fr, frames, hf⟩ : ∃ fr frames, t.state.frames = fr :: frames := by
    cases hf : t.state.frames with
    | nil =>
      unfold SourceState.step erase at hs
      rw [hf] at hs
      cases hs
    | cons fr frames => exact ⟨fr, frames, rfl⟩
  have hne : fr.rest.filter Instruction.fromSource ≠ [] := by
    intro hnil
    have hrest : fr.erase.rest = [] := hnil
    unfold SourceState.step erase at hs
    simp only [hf, List.map_cons, hrest] at hs
    cases hs
  obtain ⟨events, t₁, fr₁, x, rest, hrun, hout, hready, herase, hf₁, hr₁, hx⟩ :=
    h.reaches_source hm hg hf hne
  rw [← herase, step_erase hm hready.invariant hf₁ hr₁ hx] at hs
  obtain ⟨t', hs', rfl⟩ := Option.map_eq_some_iff.1 hs
  refine ⟨events ++ [event], t', ?_, ?_, hready.step hm hg hs', rfl⟩
  · rw [Lib.run_append, hrun, Option.bind_some, Lib.run_cons_of hs', Lib.run_nil]
  · rw [Lib.emitted_append hrun, hout, Lib.emitted_cons_of hs', seen_source hf₁ hr₁ hx]
    rfl

theorem Starts.erase (hm : m.Verified) (h : t.Starts m) : t.erase.Starts m := by
  obtain ⟨name, arguments, fr, hentry, hframes⟩ := h
  refine ⟨name, arguments, fr.erase, ?_, ?_⟩
  · rw [Module.entry_erase hm, hentry]
    rfl
  · unfold MemoryState.erase
    rw [hframes]
    rfl

/-- For a module whose functions are well formed: what is seen of the executions of the instrumented
module, with the states they end in without what was inserted, are the executions of the module
before the pass. -/
theorem executions_iff (hm : m.Verified) (hg : m.SizesGiven) (h : t.Starts m) :
    t.erase.Starts m ∧ ∀ events s,
      (∃ execution t', Lib.run (step m address) t execution = some t' ∧
        Lib.emitted (step m address) seen t execution = events ∧ t'.erase = s) ↔
      Lib.run (SourceState.step m address) t.erase events = some s := by
  refine ⟨h.erase hm, fun events s => ⟨?_, fun hr => ?_⟩⟩
  · rintro ⟨execution, t', hr, rfl, rfl⟩
    exact (run_erased hm (h.invariant hm) hr).1
  · have hstep : ∀ (t : MemoryState) (s : SourceState) (event : Choice × Effect) (s' : SourceState),
        (t.Ready address ∧ t.erase = s) → SourceState.step m address s event = some s' →
        ∃ execution t', Lib.run (step m address) t execution = some t' ∧
          Lib.emitted (step m address) seen t execution = [event] ∧
          (t'.Ready address ∧ t'.erase = s') := by
      rintro t _ event s' ⟨h, rfl⟩ hs
      exact h.reflects hm hg hs
    obtain ⟨execution, t', hrun, hout, -, rfl⟩ :=
      Lib.exists_emitted hstep ⟨h.ready hm hg, rfl⟩ hr
    exact ⟨execution, t', hrun, hout, rfl⟩

/-- What is seen of the function `keep`: `malloc` returns 0x1000, which is stored, and the return. -/
def keepEvents : List (Choice × Effect) :=
  [(.value 0x1000, .unchanged), (.value 0, .store (littleEndian 0x1000)), (.value 0, .unchanged)]

theorem executions_iff_keep : ∃ execution t',
    Lib.run (step storeModule fun _ => 0) (storeStart "keep") execution = some t' ∧
      Lib.emitted (step storeModule fun _ => 0) seen (storeStart "keep") execution = keepEvents := by
  have hr : (Lib.run (SourceState.step storeModule fun _ => 0) (storeStart "keep").erase
      keepEvents).isSome := by decide
  obtain ⟨s, hs⟩ := Option.isSome_iff_exists.1 hr
  have hgiven : storeModule.SizesGiven := by
    intro name src hsrc c hc hop
    unfold storeModule at hsrc
    split at hsrc <;> cases hsrc <;>
      · simp only [SourceFunction.straight, Function.instructions, List.flatten_cons,
          List.flatten_nil, List.append_nil, storeOnce, List.mem_cons, List.not_mem_nil,
          or_false] at hc
        rcases hc with rfl | rfl | rfl <;> simp at hop
  obtain ⟨execution, t', hrun, hout, -⟩ :=
    ((executions_iff storeModule_verified hgiven ⟨"keep", [0x200], _, rfl, rfl⟩).2 keepEvents s).2 hs
  exact ⟨execution, t', hrun, hout⟩

end MemoryState

end Dytan.IMA
