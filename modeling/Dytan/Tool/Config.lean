import Mathlib.Algebra.Group.Int.Defs
import Mathlib.Data.List.Basic
import Mathlib.Tactic.Cases

/-!
# The framework options (`set_framework_options`, `taint_generator.h`)

`setFrameworkOptions`: the number of taint marks, the generator that hands them out and the taint
sources, from a parsed configuration. `none` stands for `exit(1)`, an uncaught `BadConversion` and
an index outside `details`.

`setFrameworkOptions_marks`: when a configuration with a number of marks is accepted, the generator
only hands out marks below `NUMBER_OF_TAINT_MARKS` (`TaintGenerator.Below`).
-/

namespace Dytan

/-! ## Generators -/

/-- `TaintGenerator` and `ConstantTaintGenerator`. -/
inductive TaintGenerator
  | sequential (start current max : Nat)
  | constant (seed : Nat)
deriving DecidableEq, Repr

namespace TaintGenerator

/-- The mark handed out and the generator after it. -/
def nextTaintMark : TaintGenerator → Nat × TaintGenerator
  | .sequential start current max =>
    (current, .sequential start (if (current + 1) % max = 0 then start else current + 1) max)
  | .constant seed => (seed, .constant seed)

/-- `SetNewTaintStart`: `setStart(getCurrent())`. The constant generator does not use either. -/
def setNewTaintStart : TaintGenerator → TaintGenerator
  | .sequential _ current max => .sequential current current max
  | .constant seed => .constant seed

/-- The generator hands out marks below `n`. -/
def Below (n : Nat) : TaintGenerator → Prop
  | .sequential start current max => start < max ∧ current < max ∧ max ≤ n
  | .constant seed => seed < n

variable {n : Nat} {g : TaintGenerator}

theorem Below.next_lt (h : g.Below n) : g.nextTaintMark.1 < n := by
  cases g with
  | sequential start current max => exact Nat.lt_of_lt_of_le h.2.1 h.2.2
  | constant seed => exact h

theorem Below.next (h : g.Below n) : g.nextTaintMark.2.Below n := by
  cases g with
  | constant seed => exact h
  | sequential start current max =>
    obtain ⟨hs, hc, hm⟩ := h
    refine ⟨hs, ?_, hm⟩
    split
    · exact hs
    · rename_i hne
      have : current + 1 ≠ max := fun he => hne (by rw [he, Nat.mod_self])
      omega

theorem Below.setNewTaintStart (h : g.Below n) : g.setNewTaintStart.Below n := by
  cases g with
  | constant seed => exact h
  | sequential start current max => exact ⟨h.2.1, h.2.1, h.2.2⟩

end TaintGenerator

/-! ## `convertTo<int>` -/

/-- `isspace` in the C locale. -/
def isSpace (c : Char) : Bool := c == ' ' || (9 ≤ c.toNat && c.toNat ≤ 13)

/-- A non-empty string of digits. -/
def decimal (cs : List Char) : Option Nat :=
  if cs ≠ [] ∧ cs.all Char.isDigit then some (cs.foldl (fun n c => 10 * n + (c.toNat - 48)) 0)
  else none

/-- `std::istringstream >> int`: out of range it fails. -/
def intRange (i : Int) : Option Int := if -2 ^ 31 ≤ i ∧ i < 2 ^ 31 then some i else none

/-- `convertTo<int>`: leading space, a sign, digits and nothing after them. -/
def convertTo (s : String) : Option Int :=
  match s.toList.dropWhile isSpace with
  | '-' :: cs => do intRange (-(← decimal cs : Nat))
  | '+' :: cs => do intRange (← decimal cs : Nat)
  | cs => do intRange (← decimal cs : Nat)

/-! ## Configurations -/

/-- `taint_range_t`. -/
inductive TaintRange
  | PerByte
  | PerRead
deriving DecidableEq, Repr

/-- `source`. -/
structure SourceConfig where
  type : String
  granularity : String
  details : List String
deriving DecidableEq, Repr

/-- The part of `config` that `set_framework_options` uses. -/
structure Config where
  sources : List SourceConfig
  numMarkings : String
deriving DecidableEq, Repr

/-- What a `PathTaintSource` registers with its monitor. -/
structure PathSource where
  observeEverything : Bool
  all : Option TaintRange := none
  paths : List (String × TaintRange) := []
deriving DecidableEq, Repr

/-- What a `NetworkTaintSource` registers with its monitor. -/
structure NetworkSource where
  observeEverything : Bool
  all : Option TaintRange := none
  addresses : List (String × String × TaintRange) := []
deriving DecidableEq, Repr

/-- The globals `set_framework_options` sets. Every source that is created stays active. -/
structure Framework where
  numberOfTaintMarks : Nat
  taintGen : Option TaintGenerator
  pathSources : List PathSource
  networkSources : List NetworkSource
  funcSources : Nat
deriving DecidableEq, Repr

/-- Before `set_framework_options`. -/
def Framework.start : Framework := ⟨4096, none, [], [], 0⟩

/-- The block on `num_markings`. -/
def setNumMarkings (numMarkings : String) (fw : Framework) : Option Framework :=
  if numMarkings = "1" then some { fw with taintGen := some (.constant 5) }
  else if numMarkings ≠ "" then do
    let num ← convertTo numMarkings
    if num < 1 ∨ num > fw.numberOfTaintMarks then none
    else return { fw with
      numberOfTaintMarks := num.toNat
      taintGen := some (.sequential 0 0 num.toNat) }
  else some fw

def granularity (src : SourceConfig) : TaintRange :=
  if src.granularity = "PerRead" then .PerRead
  else if src.granularity = "PerByte" then .PerByte
  else .PerRead

/-- The addresses of a network source: `details` in pairs. -/
def networkDetails (range : TaintRange) : List String → Option (List (String × String × TaintRange))
  | [] => some []
  | [_] => none
  | ip :: port :: details => do
    let rest ← networkDetails range details
    return (ip, port, range) :: rest

/-- The source of one configuration entry. -/
def addSource (src : SourceConfig) (fw : Framework) : Option Framework :=
  if src.type = "path" then
    match src.details with
    | [] => none
    | detail :: _ =>
      if detail = "*" then
        some { fw with pathSources := fw.pathSources ++ [⟨true, some (granularity src), []⟩] }
      else
        some { fw with pathSources := fw.pathSources ++
          [⟨false, none, src.details.map fun path => (path, granularity src)⟩] }
  else if src.type = "network" then
    match src.details with
    | [] => none
    | detail :: _ =>
      if detail = "*" then
        some { fw with networkSources := fw.networkSources ++
          [⟨true, some (granularity src), []⟩] }
      else do
        let addresses ← networkDetails (granularity src) src.details
        return { fw with networkSources := fw.networkSources ++ [⟨false, none, addresses⟩] }
  else if src.type = "function" then some { fw with funcSources := fw.funcSources + 1 }
  else some fw

/-- The set up without configured sources. -/
def basicSetUp (conf : Config) : Option Framework :=
  if conf.sources.length = 0 then
    setNumMarkings conf.numMarkings
      { Framework.start with
        pathSources := [⟨false, none, []⟩]
        networkSources := [⟨false, none, []⟩]
        funcSources := 1 }
  else some Framework.start

/-- One turn of the loop over the sources. -/
def configureSource (conf : Config) (fw : Framework) (src : SourceConfig) : Option Framework := do
  let fw ← setNumMarkings conf.numMarkings fw
  addSource src fw

/-- `set_framework_options`. -/
def setFrameworkOptions (conf : Config) : Option Framework := do
  let fw ← basicSetUp conf
  conf.sources.foldlM (configureSource conf) fw

/-! ## The marks stay below the number of marks -/

/-- The generator is there and only hands out marks below the number of marks. -/
def Framework.MarksOk (fw : Framework) : Prop :=
  ∃ g, fw.taintGen = some g ∧ g.Below fw.numberOfTaintMarks

theorem addSource_marks {src : SourceConfig} {fw fw' : Framework}
    (h : addSource src fw = some fw') :
    fw'.taintGen = fw.taintGen ∧ fw'.numberOfTaintMarks = fw.numberOfTaintMarks := by
  unfold addSource at h
  split_ifs at h with h1 h2 h3
  · split at h
    · cases h
    · split at h <;> cases h <;> exact ⟨rfl, rfl⟩
  · split at h
    · cases h
    · split at h
      · cases h; exact ⟨rfl, rfl⟩
      · simp only [Option.bind_eq_bind, Option.bind_eq_some_iff] at h
        obtain ⟨_, _, h⟩ := h
        cases h
        exact ⟨rfl, rfl⟩
  · cases h; exact ⟨rfl, rfl⟩
  · cases h; exact ⟨rfl, rfl⟩

/-- `num_markings` sets up a generator; marks are never more than before. -/
theorem setNumMarkings_marks {numMarkings : String} (hne : numMarkings ≠ "") {fw fw' : Framework}
    (hfw : 5 < fw.numberOfTaintMarks ∨ numMarkings ≠ "1")
    (h : setNumMarkings numMarkings fw = some fw') :
    fw'.MarksOk ∧ (5 < fw'.numberOfTaintMarks ∨ numMarkings ≠ "1") := by
  unfold setNumMarkings at h
  split_ifs at h with h1
  · cases h
    have h5 := hfw.resolve_right fun hn => hn h1
    exact ⟨⟨_, rfl, h5⟩, .inl h5⟩
  · simp only [Option.bind_eq_bind, Option.bind_eq_some_iff] at h
    obtain ⟨num, -, h⟩ := h
    split_ifs at h with hr
    cases h
    have hpos : 0 < num.toNat := by omega
    exact ⟨⟨_, rfl, hpos, hpos, Nat.le_refl _⟩, .inr h1⟩

/-- The loop over the sources, which sets the marks up again for each of them. -/
theorem configureSources_marks {conf : Config} (hne : conf.numMarkings ≠ "")
    {sources : List SourceConfig} {fw fw' : Framework}
    (h : sources.foldlM (configureSource conf) fw = some fw')
    (h5 : 5 < fw.numberOfTaintMarks ∨ conf.numMarkings ≠ "1")
    (hnil : sources = [] → fw.MarksOk) : fw'.MarksOk := by
  induction sources generalizing fw with
  | nil =>
    cases h
    exact hnil rfl
  | cons src sources ih =>
    simp only [List.foldlM_cons, configureSource, Option.bind_eq_bind,
      Option.bind_eq_some_iff] at h
    obtain ⟨fw₂, ⟨fw₁, h₁, h₂⟩, h⟩ := h
    obtain ⟨⟨g, hg, hb⟩, h5'⟩ := setNumMarkings_marks hne h5 h₁
    obtain ⟨hgen, hnum⟩ := addSource_marks h₂
    exact ih h (hnum ▸ h5') fun _ => ⟨g, hgen.trans hg, hnum ▸ hb⟩

theorem setFrameworkOptions_marks {conf : Config} (hne : conf.numMarkings ≠ "") {fw : Framework}
    (h : setFrameworkOptions conf = some fw) : fw.MarksOk := by
  obtain ⟨fw₀, h₀, h⟩ := Option.bind_eq_some_iff.1 h
  unfold basicSetUp at h₀
  split_ifs at h₀ with hl
  · obtain ⟨hok, h5⟩ := setNumMarkings_marks hne (.inl (by decide)) h₀
    exact configureSources_marks hne h h5 fun _ => hok
  · cases h₀
    exact configureSources_marks hne h (.inl (by decide)) fun he => absurd (by rw [he]; rfl) hl

end Dytan
