import Dytan.Lib.Run
import Dytan.Tool.ConfigParser
import Mathlib.Data.List.Induction

/-!
# What a configuration file says

`XmlNode.WellFormed`: the root element has the name, and every element whose text is read has one.
`XmlNode.config`: the configuration that the file says. A `source` is added for each element, of an
option that is given several times the last counts, and of several sections `propagation` or
`profiling` the last one.

`parseConfig_iff`: the parser takes exactly the well-formed files, and to the configuration that they
say, whatever libxml2 returns for attributes and texts. `parseConfig_toXml`: every configuration is
said by a file, where libxml2 returns the text of an element and the attribute that is there.
-/

namespace Dytan

section
variable (xml : Libxml)

namespace XmlNode

/-! ## The meaning -/

def text (node : XmlNode) : Option String := xml.xmlNodeListGetString node.children

/-- The text of the last of the nodes with the name. -/
def lastText (nodes : List XmlNode) (name : String) : Option String :=
  ((nodes.filter (·.name = name)).filterMap (text xml)).getLast?

/-- A source; without the attribute `type` the rest of the element does not count. -/
def source (node : XmlNode) : SourceConfig :=
  match xml.xmlGetProp node "type" with
  | some txt => ⟨txt, (node.texts xml "granularity").getLast?.getD "", node.details xml⟩
  | none => ⟨"", "", []⟩

/-- The option is on. -/
def option (nodes : List XmlNode) (name : String) : Bool := lastText xml nodes name = some "true"

def propagation (node : XmlNode) : Propagation :=
  ⟨option xml node.children "dataflow", option xml node.children "controlflow"⟩

def profiling (node : XmlNode) : Profiling :=
  ⟨option xml node.children "marks", option xml node.children "markop"⟩

/-- The last section with the name. -/
def lastSection (root : XmlNode) (name : String) : Option XmlNode :=
  (root.children.filter (·.name = name)).getLast?

/-- What the file says. -/
def config (root : XmlNode) : ParsedConfig where
  sources := root.sourceNodes.map (source xml)
  numMarkings := root.taintMarks xml
  prop := (root.lastSection "propagation").map (propagation xml)
  prof := (root.lastSection "profiling").map (profiling xml)

/-- The nodes with one of the names have a text. -/
def TextsGiven (nodes : List XmlNode) (names : List String) : Prop :=
  ∀ cur ∈ nodes, cur.name ∈ names → (cur.text xml).isSome

structure WellFormed (root : XmlNode) : Prop where
  name : root.name = "dytan-config"
  details : ∀ cur ∈ root.sourceNodes, (xml.xmlGetProp cur "type").isSome →
    ∀ sub ∈ cur.children, sub.type = .elementNode → (sub.text xml).isSome
  taintMarks : TextsGiven xml root.sourcesChildren ["taint-marks"]
  propagation : ∀ sub ∈ root.children, sub.name = "propagation" →
    TextsGiven xml sub.children ["dataflow", "controlflow"]
  profiling : ∀ sub ∈ root.children, sub.name = "profiling" →
    TextsGiven xml sub.children ["marks", "markop"]

theorem lastText_nil (name : String) : lastText xml [] name = none := rfl

theorem lastText_concat (nodes : List XmlNode) (node : XmlNode) (name : String) :
    lastText xml (nodes ++ [node]) name =
      if node.name = name then (node.text xml).or (lastText xml nodes name)
      else lastText xml nodes name := by
  rw [lastText, List.filter_append, List.filterMap_append, List.getLast?_append, List.filter_cons]
  simp only [decide_eq_true_eq]
  split_ifs with hname
  · cases h : node.text xml <;> simp [h, lastText]
  · rfl

end XmlNode

open XmlNode

/-! ## Sources -/

/-- What `parseDetail` does when there is a text. -/
def addDetail (src : SourceConfig) (sub : XmlNode) : SourceConfig :=
  match sub.text xml with
  | some subtext =>
    if sub.type = .elementNode then
      if sub.name = "granularity" then { src with granularity := subtext }
      else { src with details := src.details ++ [subtext] }
    else src
  | none => src

theorem parseDetail_iff (src : SourceConfig) (sub : XmlNode) (src' : SourceConfig) :
    parseDetail xml src sub = some src' ↔
      (sub.type = .elementNode → (sub.text xml).isSome) ∧ addDetail xml src sub = src' := by
  unfold parseDetail addDetail XmlNode.text
  cases xml.xmlNodeListGetString sub.children with
  | none => by_cases ht : sub.type = .elementNode <;> simp [ht]
  | some subtext =>
    by_cases ht : sub.type = .elementNode
    · by_cases hn : sub.name = "granularity" <;> simp [ht, hn]
    · simp [ht]

theorem foldl_addDetail (subs : List XmlNode) (src : SourceConfig) :
    subs.foldl (addDetail xml) src = { src with
      granularity := ((subs.filter fun sub =>
        sub.type = .elementNode ∧ sub.name = "granularity").filterMap (text xml)).getLast?.getD
          src.granularity
      details := src.details ++ (subs.filter fun sub =>
        sub.type = .elementNode ∧ sub.name ≠ "granularity").filterMap (text xml) } := by
  induction subs using List.reverseRecOn with
  | nil => simp
  | append_singleton subs sub ih =>
    rw [List.foldl_concat, ih, addDetail, List.filter_append, List.filter_append,
      List.filterMap_append, List.filterMap_append, List.getLast?_append, List.filter_cons,
      List.filter_cons]
    cases htext : sub.text xml with
    | none => by_cases ht : sub.type = .elementNode <;> by_cases hn : sub.name = "granularity" <;>
        simp [ht, hn, htext]
    | some subtext =>
      by_cases ht : sub.type = .elementNode
      · by_cases hn : sub.name = "granularity" <;> simp [ht, hn, htext]
      · simp [ht]

/-- The texts that are read of a source are given. -/
def DetailsGiven (cur : XmlNode) : Prop :=
  (xml.xmlGetProp cur "type").isSome →
    ∀ sub ∈ cur.children, sub.type = .elementNode → (sub.text xml).isSome

theorem parseSource_iff (cur : XmlNode) (src : SourceConfig) :
    parseSource xml cur = some src ↔ DetailsGiven xml cur ∧ cur.source xml = src := by
  unfold parseSource DetailsGiven XmlNode.source
  cases xml.xmlGetProp cur "type" with
  | none => simp
  | some txt =>
    have hloop : cur.children.foldlM (parseDetail xml) ⟨txt, "", []⟩ = some src ↔ _ :=
      Lib.run_guarded_iff (parseDetail_iff xml)
    rw [foldl_addDetail, List.nil_append] at hloop
    exact hloop.trans (and_congr_left' ⟨fun h _ => h, fun h => h rfl⟩)

/-! ## Sections -/

/-- What `parseSourcesChild` does when the texts are given. -/
def addSourcesChild (conf : ParsedConfig) (cur : XmlNode) : ParsedConfig :=
  if cur.name = "source" then { conf with sources := conf.sources ++ [cur.source xml] }
  else if cur.name = "taint-marks" then
    { conf with numMarkings := (cur.text xml).getD conf.numMarkings }
  else conf

/-- The texts that are read of a child of `sources` are given. -/
def SourcesChildGiven (cur : XmlNode) : Prop :=
  (cur.name = "source" → DetailsGiven xml cur) ∧ (cur.name = "taint-marks" → (cur.text xml).isSome)

theorem parseSourcesChild_iff (conf : ParsedConfig) (cur : XmlNode) (conf' : ParsedConfig) :
    parseSourcesChild xml conf cur = some conf' ↔
      SourcesChildGiven xml cur ∧ addSourcesChild xml conf cur = conf' := by
  unfold parseSourcesChild SourcesChildGiven addSourcesChild
  by_cases hs : cur.name = "source"
  · rw [if_pos hs, if_pos hs]
    simp only [Option.bind_eq_bind, Option.bind_eq_some_iff, parseSource_iff]
    simp [hs]
  · by_cases hm : cur.name = "taint-marks"
    · unfold XmlNode.text
      cases xml.xmlNodeListGetString cur.children <;> simp [hm]
    · simp [hs, hm]

theorem foldl_addSourcesChild (nodes : List XmlNode) (conf : ParsedConfig) :
    nodes.foldl (addSourcesChild xml) conf = { conf with
      sources := conf.sources ++ (nodes.filter (·.name = "source")).map (XmlNode.source xml)
      numMarkings := (lastText xml nodes "taint-marks").getD conf.numMarkings } := by
  induction nodes using List.reverseRecOn with
  | nil => simp [lastText_nil]
  | append_singleton nodes cur ih =>
    rw [List.foldl_concat, ih, addSourcesChild, List.filter_append, List.map_append,
      lastText_concat, List.filter_cons]
    by_cases hs : cur.name = "source"
    · simp [hs]
    · by_cases hm : cur.name = "taint-marks"
      · cases cur.text xml <;> simp [hm]
      · simp [hs, hm]

/-- What `parsePropagationChild` does when there is a text. -/
def addPropagationChild (prop : Propagation) (cur : XmlNode) : Propagation :=
  match cur.text xml with
  | some key =>
    if cur.name = "dataflow" then { prop with dataflow := key = "true" }
    else if cur.name = "controlflow" then { prop with controlflow := key = "true" }
    else prop
  | none => prop

theorem parsePropagationChild_iff (prop : Propagation) (cur : XmlNode) (prop' : Propagation) :
    parsePropagationChild xml prop cur = some prop' ↔
      (cur.name ∈ ["dataflow", "controlflow"] → (cur.text xml).isSome) ∧
        addPropagationChild xml prop cur = prop' := by
  unfold parsePropagationChild addPropagationChild XmlNode.text
  by_cases hd : cur.name = "dataflow"
  · cases xml.xmlNodeListGetString cur.children <;> simp [hd]
  · by_cases hc : cur.name = "controlflow"
    · cases xml.xmlNodeListGetString cur.children <;> simp [hc]
    · cases xml.xmlNodeListGetString cur.children <;> simp [hd, hc]

theorem foldl_addPropagationChild (nodes : List XmlNode) :
    nodes.foldl (addPropagationChild xml) ⟨false, false⟩ =
      ⟨XmlNode.option xml nodes "dataflow", XmlNode.option xml nodes "controlflow"⟩ := by
  induction nodes using List.reverseRecOn with
  | nil => rfl
  | append_singleton nodes cur ih =>
    rw [List.foldl_concat, ih, addPropagationChild, XmlNode.option, XmlNode.option,
      XmlNode.option, XmlNode.option, lastText_concat, lastText_concat]
    by_cases hd : cur.name = "dataflow"
    · cases cur.text xml <;> simp [hd]
    · by_cases hc : cur.name = "controlflow"
      · cases cur.text xml <;> simp [hc]
      · cases cur.text xml <;> simp [hd, hc]

theorem parsePropagation_iff (conf : ParsedConfig) (cur : XmlNode) (conf' : ParsedConfig) :
    parsePropagation xml conf cur = some conf' ↔
      TextsGiven xml cur.children ["dataflow", "controlflow"] ∧
        { conf with prop := some (cur.propagation xml) } = conf' := by
  have hloop : ∀ prop, cur.children.foldlM (parsePropagationChild xml) ⟨false, false⟩ =
      some prop ↔ _ := fun prop => Lib.run_guarded_iff (parsePropagationChild_iff xml)
  simp only [parsePropagation, Option.bind_eq_bind, Option.bind_eq_some_iff, hloop,
    foldl_addPropagationChild]
  simp [TextsGiven, XmlNode.propagation]

/-- What `parseProfilingChild` does when there is a text. -/
def addProfilingChild (prof : Profiling) (cur : XmlNode) : Profiling :=
  match cur.text xml with
  | some key =>
    if cur.name = "marks" then { prof with marks := key = "true" }
    else if cur.name = "markop" then { prof with markop := key = "true" }
    else prof
  | none => prof

theorem parseProfilingChild_iff (prof : Profiling) (cur : XmlNode) (prof' : Profiling) :
    parseProfilingChild xml prof cur = some prof' ↔
      (cur.name ∈ ["marks", "markop"] → (cur.text xml).isSome) ∧
        addProfilingChild xml prof cur = prof' := by
  unfold parseProfilingChild addProfilingChild XmlNode.text
  by_cases hm : cur.name = "marks"
  · cases xml.xmlNodeListGetString cur.children <;> simp [hm]
  · by_cases ho : cur.name = "markop"
    · cases xml.xmlNodeListGetString cur.children <;> simp [ho]
    · cases xml.xmlNodeListGetString cur.children <;> simp [hm, ho]

theorem foldl_addProfilingChild (nodes : List XmlNode) :
    nodes.foldl (addProfilingChild xml) ⟨false, false⟩ =
      ⟨XmlNode.option xml nodes "marks", XmlNode.option xml nodes "markop"⟩ := by
  induction nodes using List.reverseRecOn with
  | nil => rfl
  | append_singleton nodes cur ih =>
    rw [List.foldl_concat, ih, addProfilingChild, XmlNode.option, XmlNode.option, XmlNode.option,
      XmlNode.option, lastText_concat, lastText_concat]
    by_cases hm : cur.name = "marks"
    · cases cur.text xml <;> simp [hm]
    · by_cases ho : cur.name = "markop"
      · cases cur.text xml <;> simp [ho]
      · cases cur.text xml <;> simp [hm, ho]

theorem parseProfiling_iff (conf : ParsedConfig) (cur : XmlNode) (conf' : ParsedConfig) :
    parseProfiling xml conf cur = some conf' ↔
      TextsGiven xml cur.children ["marks", "markop"] ∧
        { conf with prof := some (cur.profiling xml) } = conf' := by
  have hloop : ∀ prof, cur.children.foldlM (parseProfilingChild xml) ⟨false, false⟩ =
      some prof ↔ _ := fun prof => Lib.run_guarded_iff (parseProfilingChild_iff xml)
  simp only [parseProfiling, Option.bind_eq_bind, Option.bind_eq_some_iff, hloop,
    foldl_addProfilingChild]
  simp [TextsGiven, XmlNode.profiling]

/-! ## The file -/

/-- What `parseChild` does when the texts are given. -/
def addSection (conf : ParsedConfig) (sub : XmlNode) : ParsedConfig :=
  if sub.name = "sources" then sub.children.foldl (addSourcesChild xml) conf
  else if sub.name = "propagation" then { conf with prop := some (sub.propagation xml) }
  else if sub.name = "profiling" then { conf with prof := some (sub.profiling xml) }
  else conf

/-- The texts that are read of a child of the root element are given. -/
structure SectionGiven (sub : XmlNode) : Prop where
  sources : sub.name = "sources" → ∀ cur ∈ sub.children, SourcesChildGiven xml cur
  propagation : sub.name = "propagation" → TextsGiven xml sub.children ["dataflow", "controlflow"]
  profiling : sub.name = "profiling" → TextsGiven xml sub.children ["marks", "markop"]

theorem parseChild_iff (conf : ParsedConfig) (sub : XmlNode) (conf' : ParsedConfig) :
    parseChild xml conf sub = some conf' ↔
      SectionGiven xml sub ∧ addSection xml conf sub = conf' := by
  have hgiven : SectionGiven xml sub ↔
      (sub.name = "sources" → ∀ cur ∈ sub.children, SourcesChildGiven xml cur) ∧
      (sub.name = "propagation" → TextsGiven xml sub.children ["dataflow", "controlflow"]) ∧
      (sub.name = "profiling" → TextsGiven xml sub.children ["marks", "markop"]) :=
    ⟨fun h => ⟨h.sources, h.propagation, h.profiling⟩, fun h => ⟨h.1, h.2.1, h.2.2⟩⟩
  have hsources : parseSources xml conf sub = some conf' ↔ _ :=
    Lib.run_guarded_iff (parseSourcesChild_iff xml)
  rw [hgiven]
  unfold parseChild addSection
  by_cases hs : sub.name = "sources"
  · simp [hs, hsources]
  · by_cases hp : sub.name = "propagation"
    · simp [hp, parsePropagation_iff]
    · by_cases hf : sub.name = "profiling"
      · simp [hf, parseProfiling_iff]
      · simp [hs, hp, hf]

theorem foldl_addSection (nodes : List XmlNode) :
    nodes.foldl (addSection xml) .new =
      { sources := (((nodes.filter (·.name = "sources")).flatMap (·.children)).filter
          (·.name = "source")).map (XmlNode.source xml)
        numMarkings :=
          (lastText xml ((nodes.filter (·.name = "sources")).flatMap (·.children))
            "taint-marks").getD ""
        prop := (nodes.filter (·.name = "propagation")).getLast?.map (XmlNode.propagation xml)
        prof := (nodes.filter (·.name = "profiling")).getLast?.map (XmlNode.profiling xml) } := by
  induction nodes using List.reverseRecOn with
  | nil => rfl
  | append_singleton nodes sub ih =>
    rw [List.foldl_concat, ih, addSection]
    by_cases hs : sub.name = "sources"
    · simp [hs, foldl_addSourcesChild, lastText, List.getLast?_append]
    · by_cases hp : sub.name = "propagation"
      · simp [hp]
      · by_cases hf : sub.name = "profiling"
        · simp [hf]
        · simp [hs, hp, hf]

theorem wellFormed_iff {root : XmlNode} : root.WellFormed xml ↔
    root.name = "dytan-config" ∧ ∀ sub ∈ root.children, SectionGiven xml sub := by
  constructor
  · intro h
    refine ⟨h.name, fun sub hsub => ⟨fun hname cur hcur => ?_, h.propagation sub hsub,
      h.profiling sub hsub⟩⟩
    have hmem : cur ∈ root.sourcesChildren :=
      List.mem_flatMap.2 ⟨sub, List.mem_filter.2 ⟨hsub, decide_eq_true hname⟩, hcur⟩
    exact ⟨fun hsource => h.details cur (List.mem_filter.2 ⟨hmem, decide_eq_true hsource⟩),
      fun hmarks => h.taintMarks cur hmem (List.mem_singleton.2 hmarks)⟩
  · rintro ⟨hname, hall⟩
    have hsources : ∀ cur ∈ root.sourcesChildren, SourcesChildGiven xml cur := by
      intro cur hcur
      obtain ⟨sub, hsub, hcur⟩ := List.mem_flatMap.1 hcur
      obtain ⟨hsub, hsname⟩ := List.mem_filter.1 hsub
      exact (hall sub hsub).sources (of_decide_eq_true hsname) cur hcur
    refine ⟨hname, fun cur hcur => ?_, fun cur hcur hmarks => ?_,
      fun sub hsub => (hall sub hsub).propagation, fun sub hsub => (hall sub hsub).profiling⟩
    · obtain ⟨hcur, hsource⟩ := List.mem_filter.1 hcur
      exact (hsources cur hcur).1 (of_decide_eq_true hsource)
    · exact (hsources cur hcur).2 (List.mem_singleton.1 hmarks)

/-- The parser takes the well-formed files, and to what they say. -/
theorem parseConfig_iff (root : XmlNode) (conf : ParsedConfig) :
    parseConfig xml root = some conf ↔ root.WellFormed xml ∧ root.config xml = conf := by
  have hloop : root.children.foldlM (parseChild xml) .new = some conf ↔ _ :=
    Lib.run_guarded_iff (parseChild_iff xml)
  rw [foldl_addSection] at hloop
  rw [wellFormed_iff, parseConfig]
  split_ifs with hname
  · exact iff_of_false nofun fun h => hname h.1.1
  · rw [hloop, and_assoc]
    exact (and_iff_right (not_not.1 hname)).symm

end

/-! ## Writing a configuration -/

open XmlNode

def textNode (content : String) : XmlNode := ⟨.textNode, "text", some content, [], []⟩

def element (name : String) (properties : List (String × String)) (children : List XmlNode) :
    XmlNode := ⟨.elementNode, name, none, properties, children⟩

/-- What libxml2 returns for an attribute that is there, and for a text that is not empty. -/
structure Libxml.Lawful (xml : Libxml) : Prop where
  xmlGetProp : ∀ name property value children,
    xml.xmlGetProp (element name [(property, value)] children) property = some value
  xmlNodeListGetString : ∀ content, content ≠ "" →
    xml.xmlNodeListGetString [textNode content] = some content

theorem Libxml.leaves_lawful : Libxml.leaves.Lawful where
  xmlGetProp name property value children := by simp [Libxml.leaves, element]
  xmlNodeListGetString content _ := rfl

/-- An element with a text, for one that is not empty. -/
def textElement (name content : String) : List XmlNode :=
  if content = "" then [] else [element name [] [textNode content]]

def SourceConfig.toXml (src : SourceConfig) : XmlNode :=
  element "source" [("type", src.type)] (textElement "granularity" src.granularity ++
    src.details.flatMap (textElement "detail"))

def flagElement (name : String) (flag : Bool) : XmlNode :=
  element name [] [textNode (if flag then "true" else "false")]

/-- A file that says the configuration. -/
def ParsedConfig.toXml (conf : ParsedConfig) : XmlNode :=
  element "dytan-config" []
    (element "sources" [] (conf.sources.map SourceConfig.toXml ++
        textElement "taint-marks" conf.numMarkings) ::
      (conf.prop.toList.map fun prop => element "propagation" []
        [flagElement "dataflow" prop.dataflow, flagElement "controlflow" prop.controlflow]) ++
      conf.prof.toList.map fun prof => element "profiling" []
        [flagElement "marks" prof.marks, flagElement "markop" prof.markop])

section
variable {xml : Libxml} (hxml : xml.Lawful)
include hxml

/-- The text of such an element. -/
theorem Libxml.Lawful.text_element (name : String) {content : String} (h : content ≠ "") :
    (element name [] [textNode content]).text xml = some content :=
  hxml.xmlNodeListGetString content h

theorem SourceConfig.toXml_source {src : SourceConfig} (h : ∀ detail ∈ src.details, detail ≠ "") :
    DetailsGiven xml src.toXml ∧ src.toXml.source xml = src := by
  have hdetails : src.details.flatMap (textElement "detail") =
      src.details.map fun detail => element "detail" [] [textNode detail] := by
    rw [List.map_eq_flatMap]
    exact List.flatMap_congr fun detail hd => if_neg (h detail hd)
  have hchildren : src.toXml.children = textElement "granularity" src.granularity ++
      src.details.map fun detail => element "detail" [] [textNode detail] := by
    rw [← hdetails]
    rfl
  have htype : xml.xmlGetProp src.toXml "type" = some src.type := hxml.xmlGetProp ..
  constructor
  · intro _ sub hsub _
    rw [hchildren, List.mem_append] at hsub
    rcases hsub with hsub | hsub
    · unfold textElement at hsub
      split_ifs at hsub with hg
      · cases hsub
      · rw [List.mem_singleton.1 hsub, hxml.text_element _ hg]
        rfl
    · obtain ⟨detail, hd, rfl⟩ := List.mem_map.1 hsub
      rw [hxml.text_element _ (h detail hd)]
      rfl
  · have hnone : (src.details.map fun detail => element "detail" [] [textNode detail]).filter
        (fun sub => sub.type = .elementNode ∧ sub.name = "granularity") = [] := by
      refine List.filter_eq_nil_iff.2 fun sub hsub => ?_
      obtain ⟨detail, -, rfl⟩ := List.mem_map.1 hsub
      simp [element]
    have hall : (src.details.map fun detail => element "detail" [] [textNode detail]).filter
        (fun sub => sub.type = .elementNode ∧ sub.name ≠ "granularity") =
          src.details.map fun detail => element "detail" [] [textNode detail] := by
      refine List.filter_eq_self.2 fun sub hsub => ?_
      obtain ⟨detail, -, rfl⟩ := List.mem_map.1 hsub
      simp [element]
    have htexts : (src.details.map fun detail => element "detail" [] [textNode detail]).filterMap
        (fun sub => xml.xmlNodeListGetString sub.children) = src.details := by
      rw [List.filterMap_map]
      refine (List.filterMap_congr fun detail hd => ?_).trans List.filterMap_some
      exact hxml.text_element "detail" (h detail hd)
    have hgranularity : (src.toXml.texts xml "granularity").getLast?.getD "" = src.granularity := by
      rw [XmlNode.texts, hchildren, List.filter_append, hnone, List.append_nil, textElement]
      split_ifs with hg
      · exact hg.symm
      · have htext : [element "granularity" [] [textNode src.granularity]].filterMap (text xml) =
            [src.granularity] := List.filterMap_cons_some (hxml.text_element "granularity" hg)
        exact congrArg (·.getLast?.getD "") htext
    have hdetail : src.toXml.details xml = src.details := by
      rw [XmlNode.details, hchildren, List.filter_append, hall, List.filterMap_append, htexts,
        textElement]
      split_ifs <;> rfl
    rw [XmlNode.source, htype]
    simp only [hgranularity, hdetail]

/-- The `sources` of a written configuration. -/
theorem parseSources_toXml {conf : ParsedConfig}
    (h : ∀ src ∈ conf.sources, ∀ detail ∈ src.details, detail ≠ "") :
    parseChild xml .new (element "sources" [] (conf.sources.map SourceConfig.toXml ++
        textElement "taint-marks" conf.numMarkings)) = some ⟨conf.toConfig, none, none⟩ := by
  have hsource : ∀ cur ∈ conf.sources.map SourceConfig.toXml,
      cur.name = "source" ∧ DetailsGiven xml cur := by
    intro cur hcur
    obtain ⟨src, hsrc, rfl⟩ := List.mem_map.1 hcur
    exact ⟨rfl, (SourceConfig.toXml_source hxml (h src hsrc)).1⟩
  have hmap : (conf.sources.map SourceConfig.toXml).map (XmlNode.source xml) = conf.sources := by
    rw [List.map_map]
    refine (List.map_congr_left fun src hsrc => ?_).trans (List.map_id _)
    exact (SourceConfig.toXml_source hxml (h src hsrc)).2
  refine (Lib.run_guarded_iff (parseSourcesChild_iff xml)).2 ⟨fun cur hcur => ?_, ?_⟩
  · rcases List.mem_append.1 hcur with hcur | hcur
    · obtain ⟨hname, hgiven⟩ := hsource cur hcur
      exact ⟨fun _ => hgiven, fun hm => absurd (hname.symm.trans hm) (by decide)⟩
    · unfold textElement at hcur
      split_ifs at hcur with hn
      · cases hcur
      · rw [List.mem_singleton.1 hcur]
        refine ⟨fun hs => absurd hs (by simp [element]), fun _ => ?_⟩
        rw [hxml.text_element _ hn]
        rfl
  · have hfilter : (conf.sources.map SourceConfig.toXml).filter (·.name = "source") =
        conf.sources.map SourceConfig.toXml :=
      List.filter_eq_self.2 fun cur hcur => decide_eq_true (hsource cur hcur).1
    have hmarks : lastText xml (conf.sources.map SourceConfig.toXml) "taint-marks" = none := by
      rw [lastText, List.filter_eq_nil_iff.2 fun cur hcur => ?_]
      · rfl
      · rw [(hsource cur hcur).1]
        decide
    have hlast : (textElement "taint-marks" conf.numMarkings).foldl (addSourcesChild xml)
        ⟨⟨conf.sources, ""⟩, none, none⟩ = ⟨conf.toConfig, none, none⟩ := by
      unfold textElement
      split_ifs with hn
      · rw [← hn]
        rfl
      · rw [List.foldl_cons, List.foldl_nil, addSourcesChild, hxml.text_element _ hn]
        rfl
    show (conf.sources.map SourceConfig.toXml ++ _).foldl (addSourcesChild xml) .new = _
    rw [List.foldl_append, foldl_addSourcesChild xml _ .new, hfilter, hmap, hmarks]
    exact hlast

/-- The text of an option is `true` or `false`. -/
theorem Libxml.Lawful.flagElement_text (name : String) (flag : Bool) :
    (flagElement name flag).text xml = some (if flag then "true" else "false") :=
  hxml.text_element name (by cases flag <;> decide)

theorem Libxml.Lawful.option_flags {name name' : String} (hne : name ≠ name') (flag flag' : Bool) :
    XmlNode.option xml [flagElement name flag, flagElement name' flag'] name = flag ∧
    XmlNode.option xml [flagElement name flag, flagElement name' flag'] name' = flag' := by
  have hname : ∀ n b, (flagElement n b).name = n := fun _ _ => rfl
  constructor
  · cases flag <;> simp [XmlNode.option, lastText, hname, hxml.flagElement_text, hne.symm]
  · cases flag' <;> simp [XmlNode.option, lastText, hname, hxml.flagElement_text, hne]

/-- Both options have a text. -/
theorem Libxml.Lawful.textsGiven_flags (name name' : String) (flag flag' : Bool)
    (names : List String) :
    TextsGiven xml [flagElement name flag, flagElement name' flag'] names := by
  intro cur hcur _
  rcases List.mem_pair.1 hcur with rfl | rfl
  · rw [hxml.flagElement_text]
    rfl
  · rw [hxml.flagElement_text]
    rfl

theorem parsePropagation_toXml (conf : ParsedConfig) (prop : Propagation) :
    parseChild xml conf (element "propagation" []
        [flagElement "dataflow" prop.dataflow, flagElement "controlflow" prop.controlflow]) =
      some { conf with prop := some prop } := by
  have hne : "dataflow" ≠ "controlflow" := by decide
  obtain ⟨hdata, hcontrol⟩ := hxml.option_flags hne prop.dataflow prop.controlflow
  refine (parsePropagation_iff xml conf _ _).2 ⟨hxml.textsGiven_flags _ _ _ _ _, ?_⟩
  rw [XmlNode.propagation, element, hdata, hcontrol]

theorem parseProfiling_toXml (conf : ParsedConfig) (prof : Profiling) :
    parseChild xml conf (element "profiling" []
        [flagElement "marks" prof.marks, flagElement "markop" prof.markop]) =
      some { conf with prof := some prof } := by
  have hne : "marks" ≠ "markop" := by decide
  obtain ⟨hmarks, hmarkop⟩ := hxml.option_flags hne prof.marks prof.markop
  refine (parseProfiling_iff xml conf _ _).2 ⟨hxml.textsGiven_flags _ _ _ _ _, ?_⟩
  rw [XmlNode.profiling, element, hmarks, hmarkop]

/-- Every configuration whose details are not empty is said by a file. -/
theorem parseConfig_toXml {conf : ParsedConfig}
    (h : ∀ src ∈ conf.sources, ∀ detail ∈ src.details, detail ≠ "") :
    parseConfig xml conf.toXml = some conf := by
  have hsources := parseSources_toXml hxml h
  have hroot : parseConfig xml conf.toXml = conf.toXml.children.foldlM (parseChild xml) .new := rfl
  rw [hroot, ParsedConfig.toXml]
  rcases conf with ⟨conf, _ | prop, _ | prof⟩
  · exact (Lib.run_cons_of hsources).trans rfl
  · exact (Lib.run_cons_of hsources).trans (Lib.run_cons_of (parseProfiling_toXml hxml _ prof))
  · exact (Lib.run_cons_of hsources).trans (Lib.run_cons_of (parsePropagation_toXml hxml _ prop))
  · exact (Lib.run_cons_of hsources).trans
      ((Lib.run_cons_of (parsePropagation_toXml hxml _ prop)).trans
        (Lib.run_cons_of (parseProfiling_toXml hxml _ prof)))

end

end Dytan
