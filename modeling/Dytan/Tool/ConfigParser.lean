import Dytan.Tool.Config
import Mathlib.Data.List.Forall2

/-!
# The configuration file (`config_parser.cpp`)

`XmlNode`: the nodes of a tree of libxml2, of every kind. `Libxml`: the two of its functions that the
parser calls, for an attribute and for the text of a list of nodes; they are a parameter, and what
follows holds for whatever they return. `parseConfig` goes through the children of the root element
and fills a configuration; `none` is a root element of another name, and a string made from the `NULL`
that `xmlNodeListGetString` returns for an element without text.

`sourceNodes`, `taintMarks`, `texts` and `details` say what the file has; `parseConfig_sources`, that
the configuration has it too. `log` is left out.
-/

namespace Dytan

/-! ## The tree -/

/-- `xmlElementType`, as far as a parsed file has them. -/
inductive XmlElementType
  | elementNode | textNode | cdataSectionNode | entityRefNode | piNode | commentNode
deriving DecidableEq, Repr

/-- `xmlNode`. -/
structure XmlNode where
  type : XmlElementType
  name : String
  content : Option String
  properties : List (String × String)
  children : List XmlNode

/-- The functions of libxml2 that the parser calls; `none` is `NULL`. -/
structure Libxml where
  xmlGetProp : XmlNode → String → Option String
  xmlNodeListGetString : List XmlNode → Option String

/-- What they return where an element has one text at most. -/
def Libxml.leaves : Libxml where
  xmlGetProp node name := node.properties.lookup name
  xmlNodeListGetString list := list.head?.bind (·.content)

/-! ## The configuration -/

structure Propagation where
  dataflow : Bool
  controlflow : Bool
deriving DecidableEq, Repr

structure Profiling where
  marks : Bool
  markop : Bool
deriving DecidableEq, Repr

/-- `config`; `none` has not been initialised. -/
structure ParsedConfig extends Config where
  prop : Option Propagation
  prof : Option Profiling
deriving DecidableEq, Repr

/-- `new config`. -/
def ParsedConfig.new : ParsedConfig := ⟨⟨[], ""⟩, none, none⟩

section
variable (xml : Libxml)

/-- One turn of the loop over the children of a `source`. -/
def parseDetail (src : SourceConfig) (sub : XmlNode) : Option SourceConfig :=
  if sub.type = .elementNode then do
    let subtext ← xml.xmlNodeListGetString sub.children
    if sub.name = "granularity" then return { src with granularity := subtext }
    else return { src with details := src.details ++ [subtext] }
  else some src

/-- A `source`; without a `type` it is reported, and added all the same. -/
def parseSource (cur : XmlNode) : Option SourceConfig :=
  match xml.xmlGetProp cur "type" with
  | some txt => cur.children.foldlM (parseDetail xml) ⟨txt, "", []⟩
  | none => some ⟨"", "", []⟩

/-- One turn of the loop of `parseSources`. -/
def parseSourcesChild (conf : ParsedConfig) (cur : XmlNode) : Option ParsedConfig :=
  if cur.name = "source" then do
    let src ← parseSource xml cur
    return { conf with sources := conf.sources ++ [src] }
  else if cur.name = "taint-marks" then do
    let txt ← xml.xmlNodeListGetString cur.children
    return { conf with numMarkings := txt }
  else some conf

def parseSources (conf : ParsedConfig) (cur : XmlNode) : Option ParsedConfig :=
  cur.children.foldlM (parseSourcesChild xml) conf

/-- One turn of the loop of `parsePropagation`. -/
def parsePropagationChild (prop : Propagation) (cur : XmlNode) : Option Propagation :=
  if cur.name = "dataflow" then do
    let key ← xml.xmlNodeListGetString cur.children
    return { prop with dataflow := key = "true" }
  else if cur.name = "controlflow" then do
    let key ← xml.xmlNodeListGetString cur.children
    return { prop with controlflow := key = "true" }
  else some prop

def parsePropagation (conf : ParsedConfig) (cur : XmlNode) : Option ParsedConfig := do
  let prop ← cur.children.foldlM (parsePropagationChild xml) ⟨false, false⟩
  return { conf with prop := some prop }

/-- One turn of the loop of `parseProfiling`. -/
def parseProfilingChild (prof : Profiling) (cur : XmlNode) : Option Profiling :=
  if cur.name = "marks" then do
    let key ← xml.xmlNodeListGetString cur.children
    return { prof with marks := key = "true" }
  else if cur.name = "markop" then do
    let key ← xml.xmlNodeListGetString cur.children
    return { prof with markop := key = "true" }
  else some prof

def parseProfiling (conf : ParsedConfig) (cur : XmlNode) : Option ParsedConfig := do
  let prof ← cur.children.foldlM (parseProfilingChild xml) ⟨false, false⟩
  return { conf with prof := some prof }

/-- One turn of the loop of `parseConfig`; `parseSinks` only logs. -/
def parseChild (conf : ParsedConfig) (sub : XmlNode) : Option ParsedConfig :=
  if sub.name = "sources" then parseSources xml conf sub
  else if sub.name = "propagation" then parsePropagation xml conf sub
  else if sub.name = "profiling" then parseProfiling xml conf sub
  else some conf

/-- `parseConfig`, for a file with a root element. -/
def parseConfig (root : XmlNode) : Option ParsedConfig :=
  if root.name ≠ "dytan-config" then none else root.children.foldlM (parseChild xml) .new

/-! ## What the file has -/

namespace XmlNode

/-- The children of the `sources`, in the order of the file. -/
def sourcesChildren (root : XmlNode) : List XmlNode :=
  (root.children.filter (·.name = "sources")).flatMap (·.children)

def sourceNodes (root : XmlNode) : List XmlNode :=
  root.sourcesChildren.filter (·.name = "source")

/-- The text of the last `taint-marks`. -/
def taintMarks (root : XmlNode) : String :=
  ((root.sourcesChildren.filter (·.name = "taint-marks")).filterMap
    fun node => xml.xmlNodeListGetString node.children).getLast?.getD ""

/-- The type of a source, empty without the attribute. -/
def sourceType (node : XmlNode) : String := (xml.xmlGetProp node "type").getD ""

/-- The texts of the child elements of a name. -/
def texts (node : XmlNode) (name : String) : List String :=
  (node.children.filter fun sub => sub.type = .elementNode ∧ sub.name = name).filterMap
    fun sub => xml.xmlNodeListGetString sub.children

/-- The texts of all child elements but `granularity`, in the order of the file. -/
def details (node : XmlNode) : List String :=
  (node.children.filter fun sub => sub.type = .elementNode ∧ sub.name ≠ "granularity").filterMap
    fun sub => xml.xmlNodeListGetString sub.children

end XmlNode

/-- What the loops do to the sources and the number of marks. -/
def Fills (conf conf' : ParsedConfig) (nodes : List XmlNode) : Prop :=
  (∃ srcs, conf'.sources = conf.sources ++ srcs ∧
    List.Forall₂ (fun node src => parseSource xml node = some src)
      (nodes.filter (·.name = "source")) srcs) ∧
  conf'.numMarkings = ((nodes.filter (·.name = "taint-marks")).filterMap
    fun node => xml.xmlNodeListGetString node.children).getLast?.getD conf.numMarkings

end

section
variable {xml : Libxml}

theorem parseDetails {subs : List XmlNode} {src src' : SourceConfig}
    (h : subs.foldlM (parseDetail xml) src = some src') :
    src'.type = src.type ∧ src'.details = src.details ++
      (subs.filter fun sub => sub.type = .elementNode ∧ sub.name ≠ "granularity").filterMap
        fun sub => xml.xmlNodeListGetString sub.children := by
  induction subs generalizing src with
  | nil =>
    cases h
    exact ⟨rfl, (List.append_nil _).symm⟩
  | cons sub subs ih =>
    rw [List.foldlM_cons] at h
    obtain ⟨src₁, hsub, h⟩ := Option.bind_eq_some_iff.1 h
    obtain ⟨htype, hdetails⟩ := ih h
    unfold parseDetail at hsub
    split_ifs at hsub with helement hname
    · obtain ⟨subtext, -, hsub⟩ := Option.bind_eq_some_iff.1 hsub
      cases hsub
      exact ⟨htype, by rw [hdetails, List.filter_cons_of_neg (by simp [hname])]⟩
    · obtain ⟨subtext, htext, hsub⟩ := Option.bind_eq_some_iff.1 hsub
      cases hsub
      refine ⟨htype, ?_⟩
      rw [hdetails, List.filter_cons_of_pos (by simp [helement, hname]), List.filterMap_cons, htext]
      exact List.append_assoc ..
    · cases hsub
      exact ⟨htype, by rw [hdetails, List.filter_cons_of_neg (by simp [helement])]⟩

/-- A source has the type and, if that is given, the texts that the file has. -/
theorem parseSource_spec {cur : XmlNode} {src : SourceConfig} (h : parseSource xml cur = some src) :
    src.type = cur.sourceType xml ∧ (cur.sourceType xml ≠ "" → src.details = cur.details xml) := by
  unfold parseSource at h
  unfold XmlNode.sourceType
  cases htype : xml.xmlGetProp cur "type" with
  | none =>
    rw [htype] at h
    cases h
    exact ⟨rfl, fun hne => absurd rfl hne⟩
  | some txt =>
    rw [htype] at h
    obtain ⟨ht, hd⟩ := parseDetails h
    exact ⟨ht, fun _ => hd⟩

theorem Fills.refl (conf : ParsedConfig) : Fills xml conf conf [] :=
  ⟨⟨[], (List.append_nil _).symm, .nil⟩, rfl⟩

theorem Fills.trans {conf conf' conf'' : ParsedConfig} {nodes nodes' : List XmlNode}
    (h : Fills xml conf conf' nodes) (h' : Fills xml conf' conf'' nodes') :
    Fills xml conf conf'' (nodes ++ nodes') := by
  obtain ⟨⟨srcs, hsrcs, hall⟩, hmarks⟩ := h
  obtain ⟨⟨srcs', hsrcs', hall'⟩, hmarks'⟩ := h'
  refine ⟨⟨srcs ++ srcs', by rw [hsrcs', hsrcs, List.append_assoc], ?_⟩, ?_⟩
  · rw [List.filter_append]
    exact List.rel_append hall hall'
  · rw [hmarks', hmarks, List.filter_append, List.filterMap_append, List.getLast?_append]
    cases (List.filterMap _ (List.filter _ nodes')).getLast? <;> rfl

theorem Fills.child {conf conf' : ParsedConfig} {cur : XmlNode}
    (h : parseSourcesChild xml conf cur = some conf') : Fills xml conf conf' [cur] := by
  unfold parseSourcesChild at h
  split_ifs at h with hsource hmarks
  · obtain ⟨src, hsrc, h⟩ := Option.bind_eq_some_iff.1 h
    cases h
    refine ⟨⟨[src], rfl, ?_⟩, ?_⟩
    · simpa [hsource] using hsrc
    · simp [hsource]
  · obtain ⟨txt, htxt, h⟩ := Option.bind_eq_some_iff.1 h
    cases h
    exact ⟨⟨[], (List.append_nil _).symm, by simp [hsource]⟩, by simp [hmarks, htxt]⟩
  · cases h
    exact ⟨⟨[], (List.append_nil _).symm, by simp [hsource]⟩, by simp [hmarks]⟩

theorem Fills.parseSources {conf conf' : ParsedConfig} {nodes : List XmlNode}
    (h : nodes.foldlM (parseSourcesChild xml) conf = some conf') : Fills xml conf conf' nodes := by
  induction nodes generalizing conf with
  | nil =>
    cases h
    exact .refl _
  | cons cur nodes ih =>
    rw [List.foldlM_cons] at h
    obtain ⟨conf₁, hcur, h⟩ := Option.bind_eq_some_iff.1 h
    exact (Fills.child hcur).trans (ih h)

theorem Fills.parseConfig {conf conf' : ParsedConfig} {nodes : List XmlNode}
    (h : nodes.foldlM (parseChild xml) conf = some conf') :
    Fills xml conf conf' ((nodes.filter (·.name = "sources")).flatMap (·.children)) := by
  induction nodes generalizing conf with
  | nil =>
    cases h
    exact .refl _
  | cons sub nodes ih =>
    rw [List.foldlM_cons] at h
    obtain ⟨conf₁, hsub, h⟩ := Option.bind_eq_some_iff.1 h
    unfold parseChild at hsub
    by_cases hsources : sub.name = "sources"
    · rw [if_pos hsources] at hsub
      rw [List.filter_cons_of_pos (by simp [hsources]), List.flatMap_cons]
      exact (Fills.parseSources hsub).trans (ih h)
    · rw [if_neg hsources] at hsub
      rw [List.filter_cons_of_neg (by simp [hsources])]
      have hkeep : conf₁.toConfig = conf.toConfig := by
        split_ifs at hsub
        · obtain ⟨prop, -, he⟩ := Option.bind_eq_some_iff.1 hsub
          cases he
          rfl
        · obtain ⟨prof, -, he⟩ := Option.bind_eq_some_iff.1 hsub
          cases he
          rfl
        · cases hsub
          rfl
      have hfills := ih h
      unfold Fills at hfills
      rwa [hkeep] at hfills

/-- The configuration has the sources of the file, in the same order. -/
theorem parseConfig_sources {root : XmlNode} {conf : ParsedConfig}
    (h : parseConfig xml root = some conf) :
    List.Forall₂ (fun node src => parseSource xml node = some src) root.sourceNodes conf.sources ∧
      conf.numMarkings = root.taintMarks xml := by
  unfold parseConfig at h
  split_ifs at h
  obtain ⟨⟨srcs, hsrcs, hall⟩, hmarks⟩ := Fills.parseConfig h
  refine ⟨?_, hmarks⟩
  rw [hsrcs]
  exact hall

end

end Dytan
