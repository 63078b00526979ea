import Dytan.Tool.Coverage

/-!
# The read callbacks of the two sources

The callbacks of a path source and those of a network source for a read with the arguments `args`
(its buffer is `arg1`). The path callbacks return at once when `ret` is not positive; the network
callbacks take `ret` as a `size_t` and have no such test. `PerRead` then asks for a mark that no byte
gets, and a failed read into address 0 labels all of memory but the last byte.

`reads_agree_iff`: the two sources label alike, and as the granularity says, in all states exactly
for the reads that return bytes and do not end at the last byte of memory.
-/

namespace Dytan

namespace Tool

variable {n : Nat} {tool : Tool 32} {g : TaintGenerator} {args : SyscallArguments 32}

/-- What the two sources have in common: `memTaintMap` and the generator. -/
def labels (tool : Tool 32) : (ADDRINT 32 → Option Bitset) × Option TaintGenerator :=
  (tool.taint.memTaintMap, tool.taintGen)

/-- Byte `k` of the read has the one mark `mark k`, no other address changed, and the generator was
asked `asked` times. -/
def ReadLabelled (tool : Tool 32) (g : TaintGenerator) (args : SyscallArguments 32)
    (mark : Nat → Nat) (asked : Nat) (r : Option (Tool 32)) : Prop :=
  ∃ tool', r = some tool' ∧
    (∀ k < (toInt args.ret).toNat,
      tool'.taint.taint.mem (args.arg1 + BitVec.ofNat 32 k) = some {mark k}) ∧
    (∀ a ∉ bytesAt args.arg1 args.ret, tool'.taint.memTaintMap a = tool.taint.memTaintMap a) ∧
    tool'.taintGen = some (g.after asked)

/-- The four callbacks in one state. -/
structure ReadLaw (tool : Tool 32) (g : TaintGenerator) (args : SyscallArguments 32) : Prop where
  perByte : (tool.networkReadCallbackPerByte args.arg1 args.ret).map labels =
    (tool.pathSourceReadCallbackPerByte args).map labels
  perRead : (tool.networkReadCallbackPerRead args.arg1 args.ret).map labels =
    (tool.pathSourceReadCallbackPerRead args).map labels
  marked : 0 < toInt args.ret →
    tool.ReadLabelled g args g.mark (toInt args.ret).toNat
      (tool.pathSourceReadCallbackPerByte args) ∧
    tool.ReadLabelled g args (fun _ => g.mark 0) 1 (tool.pathSourceReadCallbackPerRead args)
  nothing : toInt args.ret ≤ 0 →
    (tool.pathSourceReadCallbackPerByte args).map labels = some tool.labels ∧
    (tool.pathSourceReadCallbackPerRead args).map labels = some tool.labels

/-- The callbacks meet the law for this read in all states. -/
def ReadsAgree (args : SyscallArguments 32) : Prop :=
  ∀ (n : Nat) (tool : Tool 32) (g : TaintGenerator),
    tool.MarksOk n → tool.taintGen = some g → tool.ReadLaw g args

/-! ## Reads that return bytes -/

theorem ofInt_toInt (a : ADDRINT 32) : BitVec.ofInt 32 (toInt a) = a := by
  rw [toInt, BitVec.setWidth_eq, BitVec.ofInt_toInt]

theorem toNat_of_pos {a : ADDRINT 32} (h : 0 < toInt a) : (toInt a).toNat = a.toNat ∧ a ≠ 0 := by
  unfold toInt at h ⊢
  rw [BitVec.setWidth_eq] at h ⊢
  constructor
  · rw [BitVec.toInt_eq_toNat_cond] at h ⊢
    split at h <;> omega
  · rintro rfl
    simp at h

/-- On a positive result the callbacks of the two sources do the same. -/
theorem callbacks_eq (hret : 0 < toInt args.ret) :
    tool.networkReadCallbackPerByte args.arg1 args.ret = tool.pathSourceReadCallbackPerByte args ∧
    tool.networkReadCallbackPerRead args.arg1 args.ret =
      tool.pathSourceReadCallbackPerRead args := by
  have hpos : ¬ toInt args.ret ≤ 0 := Int.not_le.2 hret
  constructor
  · rw [pathSourceReadCallbackPerByte, if_neg hpos, ofInt_toInt]
    rfl
  · rw [pathSourceReadCallbackPerRead, if_neg hpos, ofInt_toInt]
    rfl

/-- What a callback gave to the addresses of its loop, as bytes of the read. -/
theorem Gave.readLabelled {tool' : Tool 32} {mark : Nat → Nat} {asked : Nat} {r : Option (Tool 32)}
    (hret : 0 < toInt args.ret) (hw : ¬ RangeWraps args.arg1 args.ret) (hr : r = some tool')
    (h : tool.Gave (addrRange args.arg1 (args.arg1 + args.ret)) mark tool')
    (hgen : tool'.taintGen = some (g.after asked)) : tool.ReadLabelled g args mark asked r := by
  refine ⟨tool', hr, fun k hk => ?_, fun a ha => h.outside a (notMem_addrRange ha), hgen⟩
  rw [(toNat_of_pos hret).1] at hk
  have hlen : k < (addrRange args.arg1 (args.arg1 + args.ret)).length := by
    rwa [addrRange_length hw]
  obtain ⟨s, hs, hmarks⟩ := h.inside k hlen
  rw [addrRange_getElem] at hs
  rw [TaintState.taint_mem, hs, Option.map_some, hmarks]

theorem readLaw_of_pos (h : tool.MarksOk n) (hg : tool.taintGen = some g)
    (hret : 0 < toInt args.ret) (hw : ¬ RangeWraps args.arg1 args.ret) :
    tool.ReadLaw g args := by
  obtain ⟨hbyte, hread⟩ := @callbacks_eq tool args hret
  refine ⟨by rw [hbyte], by rw [hread], fun _ => ⟨?_, ?_⟩, fun hle => absurd hret (Int.not_lt.2 hle)⟩
  · obtain ⟨tool', hr, hgave, hgen, -⟩ := taintPerByte_gave h hg args.arg1 (args.arg1 + args.ret)
    rw [addrRange_length hw, ← (toNat_of_pos hret).1] at hgen
    refine hgave.readLabelled hret hw ?_ hgen
    rw [← hbyte, networkReadCallbackPerByte, hg]
    exact hr
  · obtain ⟨tool', hr, hgave, hgen, -⟩ := taintPerRead_gave h hg args.arg1 (args.arg1 + args.ret)
    refine hgave.readLabelled hret hw ?_ hgen
    rw [← hread]
    exact hr

/-! ## The other reads -/

/-- A tool with two marks and nothing tainted. -/
def twoMarks : Tool 32 := ⟨.initial 2, some (.sequential 0 0 2), fun _ => none⟩

theorem twoMarks_marks : twoMarks.MarksOk 2 :=
  ⟨TaintState.initial_ok 2, ⟨_, rfl, Nat.two_pos, Nat.two_pos, le_rfl⟩, nofun⟩

/-- Without bytes read, `PerRead` of the network asks for a mark. -/
theorem not_readsAgree_of_nonpos (hret : toInt args.ret ≤ 0) : ¬ ReadsAgree args := by
  intro hagree
  have hlaw := hagree 2 twoMarks _ twoMarks_marks rfl
  obtain ⟨tool', hr, -, hgen, -⟩ :=
    taintPerRead_gave twoMarks_marks rfl args.arg1 (args.arg1 + args.ret)
  have hsame := hlaw.perRead.trans (hlaw.nothing hret).2
  rw [show twoMarks.networkReadCallbackPerRead args.arg1 args.ret = some tool' from hr,
    Option.map_some, Option.some.injEq] at hsame
  have hsame := hgen.symm.trans (congrArg Prod.snd hsame)
  exact absurd hsame (by decide)

/-- A read up to the last byte of memory labels nothing. -/
theorem not_readsAgree_of_wraps (hret : 0 < toInt args.ret)
    (hw : RangeWraps args.arg1 args.ret) : ¬ ReadsAgree args := by
  intro hagree
  obtain ⟨-, tool', hr, hin, -⟩ := (hagree 1 (oneMark 32) _ oneMark_marks rfl).marked hret
  obtain ⟨tool₁, hr₁, hgave, -⟩ :=
    taintPerRead_gave oneMark_marks rfl args.arg1 (args.arg1 + args.ret)
  rw [← callbacks_eq hret |>.2] at hr
  obtain rfl := Option.some.inj (hr₁.symm.trans hr)
  have hzero := hin 0 (by omega)
  rw [BitVec.add_zero, hgave.no_entry hw] at hzero
  cases hzero

end Tool

/-- The sources label alike exactly the reads that return bytes and do not end at the last byte. -/
theorem reads_agree_iff (args : SyscallArguments 32)
    (hend : (args.arg1.toNat : Int) + toInt args.ret ≤ 2 ^ 32) :
    Tool.ReadsAgree args ↔
      0 < toInt args.ret ∧ (args.arg1.toNat : Int) + toInt args.ret ≠ 2 ^ 32 := by
  by_cases hret : 0 < toInt args.ret
  · obtain ⟨hnat, hne⟩ := Tool.toNat_of_pos hret
    have hwraps : RangeWraps args.arg1 args.ret ↔
        (args.arg1.toNat : Int) + toInt args.ret = 2 ^ 32 := by
      rw [wraps_iff_end hne (by omega)]
      omega
    constructor
    · intro h
      exact ⟨hret, fun hlast => Tool.not_readsAgree_of_wraps hret (hwraps.2 hlast) h⟩
    · rintro ⟨-, hlast⟩ n tool g h hg
      exact Tool.readLaw_of_pos h hg hret (mt hwraps.1 hlast)
  · exact iff_of_false (Tool.not_readsAgree_of_nonpos (Int.not_lt.1 hret)) fun h => hret h.1

/-- Four bytes read to `0x1000`. -/
theorem reads_agree_iff_four :
    Tool.ReadsAgree ⟨3, 0x1000, 4⟩ ↔ 0 < (4 : Int) ∧ (0x1000 + 4 : Int) ≠ 2 ^ 32 :=
  reads_agree_iff ⟨3, 0x1000, 4⟩ (by decide)

/-- At the end of the input, `read` returns 0 and the network source uses up a mark. -/
theorem empty_read_asks :
    ¬ ∀ args : SyscallArguments 32, (args.arg1.toNat : Int) + toInt args.ret ≤ 2 ^ 32 →
      Tool.ReadsAgree args :=
  fun h => Tool.not_readsAgree_of_nonpos (by decide) (h ⟨3, 0x1000, 0⟩ (by decide))

end Dytan
