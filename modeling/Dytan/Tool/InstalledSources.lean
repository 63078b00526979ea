import Dytan.Monitor.AddressOrder
import Dytan.Tool.ConfigParser

/-!
# The sources a file configures

`InstalledAsWritten`: `set_framework_options` does not index `details` out of range, the monitor of
every network source has the addresses that the host and port pairs of its element name, and finds
them, and the read callbacks find a generator.

The parser puts the texts of a source into one list, in the order of the file, and
`set_framework_options` takes the list apart by position; `observeAddress` takes any text for a host
and keeps 16 bits of the port, and the map it puts the address into need not find it among others that
the comparison does not order; for the host `*` it sets `allObserver`, which `monitor_network.cpp`
never reads; and a number of marks is needed for a generator, and none is asked for. So the sources
are installed as written exactly if the texts come in that order, name addresses that are ordered,
there is no `*` and the number of marks is given (`installed_iff`).
-/

namespace Dytan

/-! ## Addresses -/

section
variable (inet_aton : String → Option (BitVec 32)) (strtol : String → Option Int)

/-- `inet_addr`: `INADDR_NONE` for a text that is no internet address. -/
def inetAddrOf (ip : String) : BitVec 32 := (inet_aton ip).getD (BitVec.allOnes 32)

/-- `atoi`: the number a text begins with, 0 if there is none. -/
def atoiOf (port : String) : BitVec 32 := BitVec.ofInt 32 ((strtol port).getD 0)

/-- The address that a host and a port name: an internet address and a number of 16 bits. -/
def endpoint (pair : String × String) : Option NetworkAddress := do
  let ip ← inet_aton pair.1
  let number ← strtol pair.2
  if 0 ≤ number ∧ number < 2 ^ 16 then some ⟨ip, BitVec.ofInt 16 number⟩ else none

variable {inet_aton strtol}

/-- `observeAddress` registers the address that a pair names, if it names one. -/
theorem addressOf_endpoint {pair : String × String} {address : NetworkAddress}
    (h : endpoint inet_aton strtol pair = some address) :
    NetworkMonitor.addressOf (inetAddrOf inet_aton) (atoiOf strtol) pair.1 pair.2 = address := by
  obtain ⟨ip, hip, h⟩ := Option.bind_eq_some_iff.1 h
  obtain ⟨number, hnumber, h⟩ := Option.bind_eq_some_iff.1 h
  rw [Option.ite_none_right_eq_some, Option.some.injEq] at h
  have hport : (BitVec.ofInt 32 number).setWidth 16 = BitVec.ofInt 16 number := by
    apply BitVec.eq_of_toNat_eq
    simp
    omega
  rw [NetworkMonitor.addressOf, inetAddrOf, atoiOf, hip, hnumber, Option.getD_some, Option.getD_some,
    hport, h.2]

end

/-- The address pairs of a network source. -/
def NetworkSource.pairs (src : NetworkSource) : List (String × String) :=
  src.addresses.map fun address => (address.1, address.2.1)

/-- The monitor of a source has the addresses of its pairs, in order. -/
theorem NetworkSource.monitor_addresses (inet_addr : String → BitVec 32) (atoi : String → BitVec 32)
    (src : NetworkSource) : (src.monitor inet_addr atoi).addresses =
      src.pairs.map fun pair => NetworkMonitor.addressOf inet_addr atoi pair.1 pair.2 := by
  have hadd : ∀ (sources : List (String × String × TaintRange))
      (nm : NetworkMonitor NetworkCallback),
      (sources.foldl (NetworkMonitor.addNetworkSource inet_addr atoi) nm).addresses =
        nm.addresses ++ sources.map fun source =>
          NetworkMonitor.addressOf inet_addr atoi source.1 source.2.1 := by
    intro sources
    induction sources with
    | nil => exact fun nm => (List.append_nil _).symm
    | cons source sources ih =>
      intro nm
      rw [List.foldl_cons, ih, List.map_cons, NetworkMonitor.addresses,
        NetworkMonitor.addNetworkSource, NetworkMonitor.observeAddress, List.map_append,
        List.append_assoc]
      rfl
  unfold monitor pairs
  rw [List.map_map]
  cases src.all with
  | none => exact hadd _ _
  | some range => exact hadd _ _

/-! ## What is installed -/

section
variable (xml : Libxml) (inet_aton : String → Option (BitVec 32)) (strtol : String → Option Int)

namespace XmlNode

def hosts (node : XmlNode) : List String := node.texts xml "host"

def ports (node : XmlNode) : List String := node.texts xml "port"

/-- The n-th host with the n-th port. -/
def pairs (node : XmlNode) : List (String × String) := (node.hosts xml).zip (node.ports xml)

/-- The source observes what the element asks for: every address for the host `*`, otherwise the
addresses that its pairs name, and no others. -/
def Observes (node : XmlNode) (src : NetworkSource) : Prop :=
  let monitor := src.monitor (inetAddrOf inet_aton) (atoiOf strtol)
  if (node.hosts xml).head? = some "*" then
    monitor.observeEverything = true ∧ ∀ address, monitor.Finds address
  else
    monitor.observeEverything = false ∧ src.pairs = node.pairs xml ∧
      monitor.addresses.map some = (node.pairs xml).map (endpoint inet_aton strtol) ∧
      ∀ address ∈ monitor.addresses, monitor.Finds address

/-- The network sources of the file. -/
def networkNodes (root : XmlNode) : List XmlNode :=
  root.sourceNodes.filter (·.sourceType xml = "network")

end XmlNode

/-- A source is reached whose `details` are too short. -/
def Config.IndexesOutOfRange (conf : Config) : Prop :=
  ∃ pre src post fw₀ fw₁ fw₂, conf.sources = pre ++ src :: post ∧ basicSetUp conf = some fw₀ ∧
    pre.foldlM (configureSource conf) fw₀ = some fw₁ ∧
    setNumMarkings conf.numMarkings fw₁ = some fw₂ ∧ addSource src fw₂ = none

structure InstalledAsWritten (root : XmlNode) (conf : Config) : Prop where
  inRange : ¬ conf.IndexesOutOfRange
  network : conf.sources ≠ [] → ∀ fw, setFrameworkOptions conf = some fw →
    List.Forall₂ (XmlNode.Observes xml inet_aton strtol) (root.networkNodes xml) fw.networkSources
  taintGen : conf.sources ≠ [] → ∀ fw, setFrameworkOptions conf = some fw →
    ∃ g, fw.taintGen = some g

/-! ## The condition on the file -/

/-- The tool exits, or `convertTo` throws. -/
def MarksRejected (marks : String) : Prop :=
  marks ≠ "" ∧ marks ≠ "1" ∧ ∀ num ∈ convertTo marks, num < 1 ∨ 4096 < num

namespace XmlNode

/-- The texts are host, port, host, port and so on. -/
def Alternates (node : XmlNode) : Prop :=
  node.details xml = (node.pairs xml).flatMap fun pair => [pair.1, pair.2]

/-- The texts of a network source are pairs that name addresses, and of no two of these one has the
smaller ip and the other the smaller port. -/
structure NamesAddresses (node : XmlNode) : Prop where
  nonempty : node.details xml ≠ []
  specific : (node.hosts xml).head? ≠ some "*"
  alternates : node.Alternates xml
  named : ∀ pair ∈ node.pairs xml, (endpoint inet_aton strtol pair).isSome
  ordered : ∀ pair ∈ node.pairs xml, ∀ pair' ∈ node.pairs xml, ∀ a b,
    endpoint inet_aton strtol pair = some a → endpoint inet_aton strtol pair' = some b →
    ¬ a.Crossed b

/-- The parser and `set_framework_options` take the texts for the same, and `observeAddress` too. -/
structure InOrder (node : XmlNode) : Prop where
  path : node.sourceType xml = "path" → node.details xml ≠ []
  network : node.sourceType xml = "network" → node.NamesAddresses xml inet_aton strtol

end XmlNode

end

/-! ## The number of marks -/

section
variable {marks : String} {fw fw' fw₁ fw₂ : Framework} {src : SourceConfig}

/-- `setNumMarkings` sets the number and the generator. -/
theorem setNumMarkings_spec (h : setNumMarkings marks fw = some fw') :
    fw'.networkSources = fw.networkSources ∧ (marks = "" → fw'.taintGen = fw.taintGen) ∧
      (marks ≠ "" → ∃ g, fw'.taintGen = some g) := by
  unfold setNumMarkings at h
  split_ifs at h with h1 h2
  · cases h
    exact ⟨rfl, fun he => absurd (h1.symm.trans he) (by decide), fun _ => ⟨_, rfl⟩⟩
  · obtain ⟨num, -, h⟩ := Option.bind_eq_some_iff.1 h
    split_ifs at h
    cases h
    exact ⟨rfl, fun he => absurd he h2, fun _ => ⟨_, rfl⟩⟩
  · cases h
    exact ⟨rfl, fun _ => rfl, fun hne => absurd (not_not.1 h2) hne⟩

/-- Marks that are accepted once are accepted again. -/
theorem setNumMarkings_again (h : setNumMarkings marks fw = some fw₁)
    (hsame : fw₂.numberOfTaintMarks = fw₁.numberOfTaintMarks) :
    ∃ fw', setNumMarkings marks fw₂ = some fw' := by
  unfold setNumMarkings at h ⊢
  split_ifs at h ⊢ with h1 h2
  · exact ⟨_, rfl⟩
  · obtain ⟨num, hnum, h⟩ := Option.bind_eq_some_iff.1 h
    split_ifs at h with hrange
    cases h
    have hle : ¬ (num < 1 ∨ num > (fw₂.numberOfTaintMarks : Int)) := by
      rw [hsame]
      dsimp only
      omega
    simp only [hnum, Option.bind_eq_bind, Option.bind_some, if_neg hle]
    exact ⟨_, rfl⟩
  · exact ⟨_, rfl⟩

theorem setNumMarkings_start :
    setNumMarkings marks .start = none ↔ MarksRejected marks := by
  unfold setNumMarkings MarksRejected
  split_ifs with h1 h2
  · exact iff_of_false (by simp) fun h => h.2.1 h1
  · rw [Option.bind_eq_bind, Option.bind_eq_none_iff]
    constructor
    · intro h
      refine ⟨h2, h1, fun num hnum => ?_⟩
      have hnone := h num hnum
      split_ifs at hnone with hrange
      exact hrange.imp_right id
    · rintro ⟨-, -, h⟩ num hnum
      exact if_pos ((h num hnum).imp_right id)
  · exact iff_of_false (by simp) fun h => h.1 (not_not.1 h2)

/-! ## A source -/

/-- The texts of a source are too few. -/
def SourceConfig.OutOfRange (src : SourceConfig) : Prop :=
  src.type = "path" ∧ src.details = [] ∨ src.type = "network" ∧
    (src.details = [] ∨ src.details.head? ≠ some "*" ∧ src.details.length % 2 = 1)

theorem networkDetails_spec (range : TaintRange) (details : List String) :
    (networkDetails range details = none ↔ details.length % 2 = 1) ∧
    ∀ addresses, networkDetails range details = some addresses →
      details = (addresses.map fun address => (address.1, address.2.1)).flatMap
        fun pair => [pair.1, pair.2] := by
  induction details using networkDetails.induct with
  | case1 =>
    refine ⟨by simp [networkDetails], fun addresses h => ?_⟩
    cases h
    rfl
  | case2 text => exact ⟨by simp [networkDetails], fun addresses h => by cases h⟩
  | case3 ip port details ih =>
    obtain ⟨hnone, hsome⟩ := ih
    have hlen : (ip :: port :: details).length % 2 = details.length % 2 := by
      simp only [List.length_cons]
      omega
    rw [hlen, ← hnone, networkDetails]
    cases hrest : networkDetails range details with
    | none => exact ⟨by simp, fun addresses h => by cases h⟩
    | some rest =>
      refine ⟨by simp, fun addresses h => ?_⟩
      cases h
      simp only [List.map_cons, List.flatMap_cons, List.cons_append, List.nil_append]
      rw [← hsome rest hrest]

theorem networkDetails_pairs (range : TaintRange) (pairs : List (String × String)) :
    networkDetails range (pairs.flatMap fun pair => [pair.1, pair.2]) =
      some (pairs.map fun pair => (pair.1, pair.2, range)) := by
  induction pairs with
  | nil => rfl
  | cons pair pairs ih =>
    simp only [List.flatMap_cons, List.cons_append, List.nil_append, networkDetails, ih]
    rfl

/-- The network source made for a configured source. -/
def networkSourceOf (src : SourceConfig) : NetworkSource :=
  if src.details.head? = some "*" then ⟨true, some (granularity src), []⟩
  else ⟨false, none, (networkDetails (granularity src) src.details).getD []⟩

theorem addSource_none : addSource src fw = none ↔ src.OutOfRange := by
  unfold addSource SourceConfig.OutOfRange
  by_cases hpath : src.type = "path"
  · cases hd : src.details with
    | nil => simp [hpath]
    | cons detail details =>
      simp only [hpath, if_true]
      split_ifs <;> simp
  · by_cases hnetwork : src.type = "network"
    · cases hd : src.details with
      | nil => simp [hnetwork]
      | cons detail details =>
        simp only [hnetwork]
        by_cases hall : detail = "*"
        · simp [hall]
        · have hn := (networkDetails_spec (granularity src) (detail :: details)).1
          cases hdetails : networkDetails (granularity src) (detail :: details) with
          | none => simpa [hall, hdetails] using hn.1 hdetails
          | some addresses =>
            have hodd : ¬ (detail :: details).length % 2 = 1 := by
              rw [← hn, hdetails]
              simp
            simpa [hall] using hodd
    · simp only [hpath, hnetwork, if_false, false_and, or_self, iff_false]
      split_ifs <;> simp

/-- What a source in range adds to the network sources. -/
theorem addSource_some (h : addSource src fw = some fw') :
    fw'.taintGen = fw.taintGen ∧ fw'.numberOfTaintMarks = fw.numberOfTaintMarks ∧
    fw'.networkSources =
      fw.networkSources ++ if src.type = "network" then [networkSourceOf src] else [] := by
  obtain ⟨hgen, hnum⟩ := addSource_marks h
  refine ⟨hgen, hnum, ?_⟩
  have hrange : ¬ src.OutOfRange := fun hout => by
    rw [addSource_none.2 hout] at h
    cases h
  unfold addSource at h
  split_ifs at h with hpath hnetwork hfunction
  · have hne : ¬ src.type = "network" := by simp [hpath]
    rw [if_neg hne, List.append_nil]
    split at h
    · cases h
    · split_ifs at h <;> cases h <;> rfl
  · rw [if_pos hnetwork]
    cases hd : src.details with
    | nil => exact absurd (.inr ⟨hnetwork, .inl hd⟩) hrange
    | cons detail details =>
      rw [hd] at h
      dsimp only at h
      split_ifs at h with hall
      · cases h
        simp [networkSourceOf, hd, hall]
      · obtain ⟨addresses, haddresses, h⟩ := Option.bind_eq_some_iff.1 h
        cases h
        simp [networkSourceOf, hd, hall, haddresses]
  · cases h
    rw [if_neg hnetwork, List.append_nil]
  · cases h
    rw [if_neg hnetwork, List.append_nil]

end

/-! ## All sources -/

section
variable {conf : Config} {srcs : List SourceConfig} {fw fw' : Framework}

/-- What the loop over the sources leaves. -/
theorem configureSources_some (h : srcs.foldlM (configureSource conf) fw = some fw') :
    fw'.networkSources = fw.networkSources ++
      (srcs.filter (·.type = "network")).map networkSourceOf ∧
    (conf.numMarkings = "" → fw'.taintGen = fw.taintGen) ∧
    (conf.numMarkings ≠ "" → srcs ≠ [] → ∃ g, fw'.taintGen = some g) := by
  induction srcs generalizing fw with
  | nil =>
    cases h
    exact ⟨(List.append_nil _).symm, fun _ => rfl, fun _ hne => absurd rfl hne⟩
  | cons src srcs ih =>
    rw [List.foldlM_cons] at h
    obtain ⟨fw₂, hsrc, h⟩ := Option.bind_eq_some_iff.1 h
    obtain ⟨fw₁, hmarks, hadd⟩ := Option.bind_eq_some_iff.1 hsrc
    obtain ⟨hnetwork₁, hnone₁, hsome₁⟩ := setNumMarkings_spec hmarks
    obtain ⟨hgen, -, hnetwork₂⟩ := addSource_some hadd
    obtain ⟨hnetwork, hnone, hsome⟩ := ih h
    refine ⟨?_, fun he => ?_, fun hne _ => ?_⟩
    · rw [hnetwork, hnetwork₂, hnetwork₁]
      by_cases ht : src.type = "network"
      · rw [if_pos ht, List.filter_cons_of_pos (by simp [ht]), List.map_cons, List.append_assoc]
        rfl
      · rw [if_neg ht, List.filter_cons_of_neg (by simp [ht]), List.append_nil]
    · exact (hnone he).trans (hgen.trans (hnone₁ he))
    · by_cases hrest : srcs = []
      · subst hrest
        cases h
        obtain ⟨g, hg⟩ := hsome₁ hne
        exact ⟨g, hgen.trans hg⟩
      · exact hsome hne hrest

/-- The loop ends when no source is out of range. -/
theorem exists_configureSources (hmarks : ∃ fw₁, setNumMarkings conf.numMarkings fw = some fw₁)
    (hrange : ∀ src ∈ srcs, ¬ src.OutOfRange) :
    ∃ fw', srcs.foldlM (configureSource conf) fw = some fw' := by
  induction srcs generalizing fw with
  | nil => exact ⟨fw, rfl⟩
  | cons src srcs ih =>
    obtain ⟨hsrc, hsrcs⟩ := List.forall_mem_cons.1 hrange
    obtain ⟨fw₁, hfw₁⟩ := hmarks
    have hadd : addSource src fw₁ ≠ none := mt addSource_none.1 hsrc
    obtain ⟨fw₂, hfw₂⟩ := Option.ne_none_iff_exists'.1 hadd
    obtain ⟨fw', hfw'⟩ := ih (setNumMarkings_again hfw₁ (addSource_some hfw₂).2.1) hsrcs
    refine ⟨fw', ?_⟩
    rw [List.foldlM_cons, configureSource, hfw₁, Option.bind_eq_bind, Option.bind_some, hfw₂]
    exact hfw'

/-- Otherwise the first source out of range is reached. -/
theorem exists_outOfRange (hmarks : ∃ fw₁, setNumMarkings conf.numMarkings fw = some fw₁)
    (hout : ∃ src ∈ srcs, src.OutOfRange) :
    ∃ pre src post fw₁ fw₂, srcs = pre ++ src :: post ∧
      pre.foldlM (configureSource conf) fw = some fw₁ ∧
      setNumMarkings conf.numMarkings fw₁ = some fw₂ ∧ addSource src fw₂ = none := by
  induction srcs generalizing fw with
  | nil =>
    obtain ⟨src, hsrc, -⟩ := hout
    cases hsrc
  | cons src srcs ih =>
    obtain ⟨fw₁, hfw₁⟩ := hmarks
    by_cases hsrc : src.OutOfRange
    · exact ⟨[], src, srcs, fw, fw₁, rfl, rfl, hfw₁, addSource_none.2 hsrc⟩
    · have hrest := (List.exists_mem_cons_iff ..).1 hout
      have hadd : addSource src fw₁ ≠ none := mt addSource_none.1 hsrc
      obtain ⟨fw₂, hfw₂⟩ := Option.ne_none_iff_exists'.1 hadd
      obtain ⟨pre, src', post, fw₃, fw₄, rfl, hpre, hfw₄, hadd⟩ :=
        ih (setNumMarkings_again hfw₁ (addSource_some hfw₂).2.1) (hrest.resolve_left hsrc)
      refine ⟨src :: pre, src', post, fw₃, fw₄, rfl, ?_, hfw₄, hadd⟩
      rw [List.foldlM_cons, configureSource, hfw₁, Option.bind_eq_bind, Option.bind_some, hfw₂]
      exact hpre

theorem basicSetUp_of_ne (hne : conf.sources ≠ []) : basicSetUp conf = some .start :=
  if_neg fun hlen => hne (List.length_eq_zero_iff.1 hlen)

theorem accepts_iff : (∃ fw₁, setNumMarkings conf.numMarkings .start = some fw₁) ↔
    ¬ MarksRejected conf.numMarkings := by
  rw [← Option.ne_none_iff_exists', ne_eq, setNumMarkings_start]

theorem Config.indexesOutOfRange_iff : conf.IndexesOutOfRange ↔
    ¬ MarksRejected conf.numMarkings ∧ ∃ src ∈ conf.sources, src.OutOfRange := by
  constructor
  · rintro ⟨pre, src, post, fw₀, fw₁, fw₂, hsrcs, hbasic, hpre, hmarks, hadd⟩
    have hsrc : src ∈ conf.sources := hsrcs ▸ by simp
    rw [basicSetUp_of_ne (List.ne_nil_of_mem hsrc)] at hbasic
    cases hbasic
    refine ⟨accepts_iff.1 ?_, src, hsrc, addSource_none.1 hadd⟩
    cases pre with
    | nil =>
      cases hpre
      exact ⟨fw₂, hmarks⟩
    | cons first pre =>
      rw [List.foldlM_cons] at hpre
      obtain ⟨_, hfirst, _⟩ := Option.bind_eq_some_iff.1 hpre
      obtain ⟨fw₁, hfw₁, _⟩ := Option.bind_eq_some_iff.1 hfirst
      exact ⟨fw₁, hfw₁⟩
  · rintro ⟨hmarks, src, hsrc, hout⟩
    obtain ⟨pre, src', post, fw₁, fw₂, hsrcs, hpre, hfw₂, hadd⟩ :=
      exists_outOfRange (accepts_iff.2 hmarks) ⟨src, hsrc, hout⟩
    have hbasic := basicSetUp_of_ne (List.ne_nil_of_mem hsrc)
    exact ⟨pre, src', post, .start, fw₁, fw₂, hsrcs, hbasic, hpre, hfw₂, hadd⟩

/-- With sources, the set up is the loop. -/
theorem setFrameworkOptions_of_ne (hne : conf.sources ≠ []) :
    setFrameworkOptions conf = conf.sources.foldlM (configureSource conf) .start := by
  rw [setFrameworkOptions, basicSetUp_of_ne hne]
  rfl

/-- It stops at the first source when the marks are rejected. -/
theorem setFrameworkOptions_rejected (hne : conf.sources ≠ [])
    (hrejected : MarksRejected conf.numMarkings) : setFrameworkOptions conf = none := by
  obtain ⟨src, srcs, hsrcs⟩ := List.exists_cons_of_ne_nil hne
  rw [setFrameworkOptions_of_ne hne, hsrcs, List.foldlM_cons, configureSource,
    setNumMarkings_start.2 hrejected]
  rfl

/-- Otherwise it comes to its end when no source is out of range. -/
theorem exists_setFrameworkOptions (hne : conf.sources ≠ [])
    (haccepted : ¬ MarksRejected conf.numMarkings)
    (hrange : ∀ src ∈ conf.sources, ¬ src.OutOfRange) :
    ∃ fw, setFrameworkOptions conf = some fw := by
  rw [setFrameworkOptions_of_ne hne]
  exact exists_configureSources (accepts_iff.2 haccepted) hrange

/-- What it leaves. -/
theorem setFrameworkOptions_some (hne : conf.sources ≠ [])
    (h : setFrameworkOptions conf = some fw) :
    fw.networkSources = (conf.sources.filter (·.type = "network")).map networkSourceOf ∧
    ((∃ g, fw.taintGen = some g) ↔ conf.numMarkings ≠ "") := by
  rw [setFrameworkOptions_of_ne hne] at h
  obtain ⟨hnetwork, hnone, hsome⟩ := configureSources_some h
  refine ⟨hnetwork, fun ⟨g, hg⟩ he => ?_, fun hmarks => hsome hmarks hne⟩
  rw [hnone he] at hg
  cases hg

end

/-! ## The file and what is installed -/

section
variable {xml : Libxml} {inet_aton : String → Option (BitVec 32)} {strtol : String → Option Int}

namespace XmlNode

variable {root node : XmlNode} {src : SourceConfig}

theorem Alternates.head (h : node.Alternates xml) (hne : node.details xml ≠ []) :
    (node.details xml).head? = (node.hosts xml).head? := by
  rw [Alternates, pairs] at h
  rw [h] at hne ⊢
  cases hh : node.hosts xml with
  | nil => simp [hh] at hne
  | cons host hosts =>
    cases hp : node.ports xml with
    | nil => simp [hh, hp] at hne
    | cons port ports => simp

/-- The addresses registered for pairs are those they name exactly if each names one. -/
theorem addresses_iff {pairs : List (String × String)} :
    (pairs.map fun pair => NetworkMonitor.addressOf (inetAddrOf inet_aton) (atoiOf strtol) pair.1
        pair.2).map some = pairs.map (endpoint inet_aton strtol) ↔
      ∀ pair ∈ pairs, (endpoint inet_aton strtol pair).isSome := by
  rw [List.map_map, List.map_inj_left]
  refine forall₂_congr fun pair _ => ?_
  constructor
  · intro h
    rw [← h]
    rfl
  · intro h
    obtain ⟨address, haddress⟩ := Option.isSome_iff_exists.1 h
    rw [haddress, ← addressOf_endpoint haddress]
    rfl

/-- They are all found exactly if no two of them are crossed. -/
theorem finds_iff {nm : NetworkMonitor NetworkCallback} {pairs : List (String × String)}
    (h : nm.addresses.map some = pairs.map (endpoint inet_aton strtol)) :
    (∀ address ∈ nm.addresses, nm.Finds address) ↔
      ∀ pair ∈ pairs, ∀ pair' ∈ pairs, ∀ a b, endpoint inet_aton strtol pair = some a →
        endpoint inet_aton strtol pair' = some b → ¬ a.Crossed b := by
  have hmem : ∀ a, a ∈ nm.addresses ↔ ∃ pair ∈ pairs, endpoint inet_aton strtol pair = some a := by
    intro a
    rw [← List.mem_map_of_injective (Option.some_injective _), h, List.mem_map]
  rw [NetworkMonitor.finds_all_iff]
  constructor
  · intro hnot pair hpair pair' hpair' a b ha hb
    exact hnot a ((hmem a).2 ⟨pair, hpair, ha⟩) b ((hmem b).2 ⟨pair', hpair', hb⟩)
  · intro hnot a ha b hb
    obtain ⟨pair, hpair, ha⟩ := (hmem a).1 ha
    obtain ⟨pair', hpair', hb⟩ := (hmem b).1 hb
    exact hnot pair hpair pair' hpair' a b ha hb

/-- One network source. -/
theorem observes_iff (hrange : ¬ src.OutOfRange) (htype : src.type = "network")
    (hdetails : src.details = node.details xml) :
    node.Observes xml inet_aton strtol (networkSourceOf src) ↔
      node.NamesAddresses xml inet_aton strtol := by
  have hne : node.details xml ≠ [] := fun he =>
    hrange (.inr ⟨htype, .inl (hdetails.trans he)⟩)
  have haddresses :=
    (networkSourceOf src).monitor_addresses (inetAddrOf inet_aton) (atoiOf strtol)
  have hobserve :=
    ((networkSourceOf src).monitor_start (inetAddrOf inet_aton) (atoiOf strtol)).1
  unfold Observes
  dsimp only
  generalize (networkSourceOf src).monitor (inetAddrOf inet_aton) (atoiOf strtol) = monitor at *
  by_cases hall : (node.details xml).head? = some "*"
  · -- no address is registered for the host `*`
    have hsource : networkSourceOf src = ⟨true, some (granularity src), []⟩ :=
      if_pos (hdetails ▸ hall)
    rw [hsource] at haddresses hobserve
    refine iff_of_false ?_ fun h => h.specific (h.alternates.head hne ▸ hall)
    split_ifs
    · rintro ⟨-, h⟩
      have hmem := (NetworkMonitor.finds_iff.1 (h ⟨0, 0⟩)).1
      rw [haddresses] at hmem
      cases hmem
    · rintro ⟨hspecific, -⟩
      cases hobserve.symm.trans hspecific
  · have heven : networkDetails (granularity src) (node.details xml) ≠ none := fun hnone =>
      hrange (.inr ⟨htype, .inr ⟨hdetails ▸ hall, hdetails ▸ (networkDetails_spec _ _).1.1 hnone⟩⟩)
    obtain ⟨addresses, hsome⟩ := Option.ne_none_iff_exists'.1 heven
    have hsource : networkSourceOf src = ⟨false, none, addresses⟩ := by
      rw [networkSourceOf, hdetails, if_neg hall, hsome, Option.getD_some]
    rw [hsource] at haddresses hobserve ⊢
    constructor
    · intro h
      split_ifs at h with hhost
      · cases hobserve.symm.trans h.1
      · obtain ⟨-, hpairs, hnamed, hfinds⟩ := h
        refine ⟨hne, hhost, ?_, ?_, (finds_iff hnamed).1 hfinds⟩
        · rw [Alternates, ← hpairs]
          exact (networkDetails_spec _ _).2 addresses hsome
        · rw [haddresses, hpairs] at hnamed
          exact addresses_iff.1 hnamed
    · intro h
      have halternates := h.alternates
      rw [if_neg h.specific]
      rw [Alternates] at halternates
      rw [halternates, networkDetails_pairs] at hsome
      cases hsome
      have hpairs : NetworkSource.pairs ⟨false, none,
          (node.pairs xml).map fun pair => (pair.1, pair.2, granularity src)⟩ = node.pairs xml := by
        rw [NetworkSource.pairs, List.map_map]
        exact List.map_id _
      rw [hpairs] at haddresses
      have hnamed := addresses_iff.2 h.named
      rw [← haddresses] at hnamed
      exact ⟨hobserve, hpairs, hnamed, (finds_iff hnamed).2 h.ordered⟩

/-- A source is in order exactly if it is in range and, for a network source, observes what its
element says. -/
theorem inOrder_iff (h : parseSource xml node = some src) :
    node.InOrder xml inet_aton strtol ↔ ¬ src.OutOfRange ∧ (node.sourceType xml = "network" →
      node.Observes xml inet_aton strtol (networkSourceOf src)) := by
  obtain ⟨htype, hdetails⟩ := parseSource_spec h
  constructor
  · rintro ⟨hpath, hnetwork⟩
    have hrange : ¬ src.OutOfRange := by
      rintro (⟨ht, hnil⟩ | ⟨ht, hout⟩)
      · rw [htype] at ht
        rw [hdetails (by simp [ht])] at hnil
        exact hpath ht hnil
      · rw [htype] at ht
        rw [hdetails (by simp [ht])] at hout
        obtain ⟨hne, -, hpairs, -⟩ := hnetwork ht
        rcases hout with hnil | ⟨-, hodd⟩
        · exact hne hnil
        · rw [hpairs] at hodd
          have hlen : ∀ pairs : List (String × String),
              (pairs.flatMap fun pair => [pair.1, pair.2]).length = 2 * pairs.length := by
            intro pairs
            induction pairs with
            | nil => rfl
            | cons pair pairs ih =>
              rw [List.flatMap_cons, List.length_append, ih, List.length_cons]
              simp only [List.length_cons, List.length_nil]
              omega
          rw [hlen] at hodd
          omega
    refine ⟨hrange, fun ht => (observes_iff hrange (htype.trans ht) ?_).2 (hnetwork ht)⟩
    exact hdetails (by simp [ht])
  · rintro ⟨hrange, hobserves⟩
    refine ⟨fun ht hnil => ?_, fun ht => ?_⟩
    · have hd := hdetails (by simp [ht])
      exact hrange (.inl ⟨htype.trans ht, hd.trans hnil⟩)
    · exact (observes_iff hrange (htype.trans ht) (hdetails (by simp [ht]))).1 (hobserves ht)

theorem range_of_inOrder {nodes : List XmlNode} {srcs : List SourceConfig}
    (hall : List.Forall₂ (fun node src => parseSource xml node = some src) nodes srcs)
    (horder : ∀ node ∈ nodes, node.InOrder xml inet_aton strtol) :
    ∀ src ∈ srcs, ¬ src.OutOfRange := by
  induction hall with
  | nil => simp
  | cons hsrc _ ih =>
    obtain ⟨hnode, hnodes⟩ := List.forall_mem_cons.1 horder
    exact List.forall_mem_cons.2 ⟨((inOrder_iff hsrc).1 hnode).1, ih hnodes⟩

/-- The network sources, in order. -/
theorem forall₂_observes {nodes : List XmlNode} {srcs : List SourceConfig}
    (hall : List.Forall₂ (fun node src => parseSource xml node = some src) nodes srcs)
    (hrange : ∀ src ∈ srcs, ¬ src.OutOfRange) :
    List.Forall₂ (Observes xml inet_aton strtol) (nodes.filter (·.sourceType xml = "network"))
      ((srcs.filter (·.type = "network")).map networkSourceOf) ↔
        ∀ node ∈ nodes, node.InOrder xml inet_aton strtol := by
  induction hall with
  | nil => simp
  | @cons node src nodes srcs hsrc _ ih =>
    obtain ⟨hhead, htail⟩ := List.forall_mem_cons.1 hrange
    obtain ⟨htype, -⟩ := parseSource_spec hsrc
    rw [List.forall_mem_cons, ← ih htail, inOrder_iff hsrc]
    by_cases ht : node.sourceType xml = "network"
    · rw [List.filter_cons_of_pos (by simp [ht]),
        List.filter_cons_of_pos (by simp [htype, ht]), List.map_cons, List.forall₂_cons]
      simp [hhead, ht]
    · rw [List.filter_cons_of_neg (by simp [ht]), List.filter_cons_of_neg (by simp [htype, ht])]
      simp [hhead, ht]

end XmlNode

/-- The sources are installed as written exactly if the file has none, or its number of marks is
rejected, or it has a number of marks and all sources are in order. -/
theorem installed_iff {root : XmlNode} {conf : ParsedConfig}
    (h : parseConfig xml root = some conf) :
    InstalledAsWritten xml inet_aton strtol root conf.toConfig ↔
      root.sourceNodes = [] ∨ MarksRejected (root.taintMarks xml) ∨
        root.taintMarks xml ≠ "" ∧
          ∀ node ∈ root.sourceNodes, node.InOrder xml inet_aton strtol := by
  obtain ⟨hall, hmarks⟩ := parseConfig_sources h
  by_cases hnone : conf.sources = []
  · have hnodes : root.sourceNodes = [] := by
      rw [hnone] at hall
      exact List.forall₂_nil_right_iff.1 hall
    refine iff_of_true ⟨fun hout => ?_, fun hne => absurd hnone hne, fun hne => absurd hnone hne⟩
      (.inl hnodes)
    obtain ⟨-, src, hsrc, -⟩ := Config.indexesOutOfRange_iff.1 hout
    rw [hnone] at hsrc
    cases hsrc
  have hnodes : root.sourceNodes ≠ [] := fun he => hnone (by
    rw [he] at hall
    exact List.forall₂_nil_left_iff.1 hall)
  rw [← hmarks, or_iff_right hnodes]
  by_cases hrejected : MarksRejected conf.numMarkings
  · have hstop : setFrameworkOptions conf.toConfig = none :=
      setFrameworkOptions_rejected hnone hrejected
    refine iff_of_true ⟨fun hout => ?_, fun _ fw hfw => ?_, fun _ fw hfw => ?_⟩ (.inl hrejected)
    · exact (Config.indexesOutOfRange_iff.1 hout).1 hrejected
    · rw [hstop] at hfw
      cases hfw
    · rw [hstop] at hfw
      cases hfw
  rw [or_iff_right hrejected]
  constructor
  · intro hinstalled
    have hrange : ∀ src ∈ conf.sources, ¬ src.OutOfRange := fun src hsrc hout =>
      hinstalled.inRange (Config.indexesOutOfRange_iff.2 ⟨hrejected, src, hsrc, hout⟩)
    obtain ⟨fw, hfw⟩ := exists_setFrameworkOptions hnone hrejected hrange
    obtain ⟨hsources, hgen⟩ := setFrameworkOptions_some hnone hfw
    have hnetwork := hinstalled.network hnone fw hfw
    rw [hsources] at hnetwork
    exact ⟨hgen.1 (hinstalled.taintGen hnone fw hfw),
      (XmlNode.forall₂_observes hall hrange).1 hnetwork⟩
  · rintro ⟨hne, horder⟩
    have hrange := XmlNode.range_of_inOrder hall horder
    refine ⟨fun hout => ?_, fun _ fw hfw => ?_, fun _ fw hfw => ?_⟩
    · obtain ⟨-, src, hsrc, hout⟩ := Config.indexesOutOfRange_iff.1 hout
      exact hrange src hsrc hout
    · rw [(setFrameworkOptions_some hnone hfw).1]
      exact (XmlNode.forall₂_observes hall hrange).2 horder
    · exact (setFrameworkOptions_some hnone hfw).2.2 hne

end

/-! ## Files with a network source -/

/-- An element with a text. -/
def XmlNode.leaf (name text : String) : XmlNode :=
  ⟨.elementNode, name, none, [], [⟨.textNode, "text", some text, [], []⟩]⟩

/-- A file with a network source and, behind it, the rest of the `sources`. -/
def networkFile (source rest : List XmlNode) : XmlNode :=
  ⟨.elementNode, "dytan-config", none, [],
    [⟨.elementNode, "sources", none, [],
      ⟨.elementNode, "source", none, [("type", "network")], source⟩ :: rest⟩]⟩

/-- `inet_aton` on the texts below. -/
def dottedLocalhost (ip : String) : Option (BitVec 32) :=
  if ip = "127.0.0.1" then some 0x0100007f
  else if ip = "127.0.0.2" then some 0x0200007f
  else none

/-- The sample file. -/
def sampleFile : XmlNode :=
  networkFile [.leaf "host" "127.0.0.1", .leaf "port" "80", .leaf "granularity" "PerRead"]
    [.leaf "taint-marks" "32"]

def sampleConfig : ParsedConfig :=
  ⟨⟨[⟨"network", "PerRead", ["127.0.0.1", "80"]⟩], "32"⟩, none, none⟩

theorem installed_iff_sample :
    InstalledAsWritten .leaves dottedLocalhost convertTo sampleFile sampleConfig.toConfig ↔
      sampleFile.sourceNodes = [] ∨ MarksRejected (sampleFile.taintMarks .leaves) ∨
        sampleFile.taintMarks .leaves ≠ "" ∧
          ∀ node ∈ sampleFile.sourceNodes, node.InOrder .leaves dottedLocalhost convertTo :=
  installed_iff rfl

/-- Two addresses, the second with the larger ip and the smaller port. -/
def crossedFile : XmlNode :=
  networkFile [.leaf "host" "127.0.0.1", .leaf "port" "80", .leaf "host" "127.0.0.2",
    .leaf "port" "22"] [.leaf "taint-marks" "32"]

/-- Without a number of marks there is no generator; without a port an element behind the list is
read; with the port first, the port is observed as a host; of a port too large the lower 16 bits are
observed; for the host `*` no address is; and of two addresses that are not ordered one need not be
found. -/
theorem not_installed :
    (∃ conf, parseConfig .leaves (networkFile [.leaf "host" "127.0.0.1", .leaf "port" "80"] []) =
      some conf ∧ ¬ InstalledAsWritten .leaves dottedLocalhost convertTo
        (networkFile [.leaf "host" "127.0.0.1", .leaf "port" "80"] []) conf.toConfig) ∧
    (∃ conf, parseConfig .leaves
        (networkFile [.leaf "host" "127.0.0.1"] [.leaf "taint-marks" "32"]) =
      some conf ∧ conf.IndexesOutOfRange) ∧
    (∃ conf, parseConfig .leaves (networkFile [.leaf "port" "80", .leaf "host" "127.0.0.1"]
      [.leaf "taint-marks" "32"]) = some conf ∧ ∃ fw, setFrameworkOptions conf.toConfig = some fw ∧
        fw.networkSources.map NetworkSource.pairs = [[("80", "127.0.0.1")]]) ∧
    (∃ conf, parseConfig .leaves (networkFile [.leaf "host" "127.0.0.1", .leaf "port" "65616"]
      [.leaf "taint-marks" "32"]) = some conf ∧ ∃ fw, setFrameworkOptions conf.toConfig = some fw ∧
        fw.networkSources.map (fun src => (src.monitor (inetAddrOf dottedLocalhost)
          (atoiOf convertTo)).addresses) = [[⟨0x0100007f, 80⟩]]) ∧
    (∃ conf, parseConfig .leaves (networkFile [.leaf "host" "*"] [.leaf "taint-marks" "32"]) =
      some conf ∧ ∃ fw, setFrameworkOptions conf.toConfig = some fw ∧
        fw.networkSources.map (fun src => (src.monitor (inetAddrOf dottedLocalhost)
          (atoiOf convertTo)).addresses) = [[]]) ∧
    ∃ conf, parseConfig .leaves crossedFile = some conf ∧
      ∃ fw, setFrameworkOptions conf.toConfig = some fw ∧ ∃ src ∈ fw.networkSources,
        (src.monitor (inetAddrOf dottedLocalhost) (atoiOf convertTo)).addresses =
          [⟨0x0100007f, 80⟩, ⟨0x0200007f, 22⟩] ∧
        ¬ (src.monitor (inetAddrOf dottedLocalhost) (atoiOf convertTo)).Finds ⟨0x0200007f, 22⟩ := by
  refine ⟨⟨_, rfl, fun h => ?_⟩, ⟨_, rfl, ?_⟩, ⟨_, rfl, ?_⟩, ⟨_, rfl, ?_⟩, ⟨_, rfl, ?_⟩, ⟨_, rfl, ?_⟩⟩
  · obtain ⟨g, hg⟩ := h.taintGen (by simp) _ rfl
    cases hg
  · exact ⟨[], _, [], _, _, _, rfl, rfl, rfl, rfl, rfl⟩
  · exact ⟨_, rfl, rfl⟩
  · exact ⟨_, rfl, by decide⟩
  · exact ⟨_, rfl, rfl⟩
  · refine ⟨_, rfl, _, List.mem_singleton_self _, by decide, fun h => ?_⟩
    have hordered := (NetworkMonitor.finds_iff.1 h).2
    refine NetworkAddress.not_crossed_of_strictWeak hordered ⟨0x0100007f, 80⟩ (.inr ?_)
      ⟨0x0200007f, 22⟩ (.inl rfl) ⟨by decide, by decide⟩
    show _ ∈ NetworkMonitor.addresses _
    decide

end Dytan
