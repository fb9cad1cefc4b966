import SearchLab.Proofs.Bag.Merge
import SearchLab.Proofs.Notation.Accepted
import SearchLab.Proofs.Notation.FreeForm

/-!
# Nodes that are named again

Each line that names a node has data and a style of its own. The first one adds the node with them, and every other one
merges them into what the node has, data into data and style into style (`forM_applyLine_names`). Written behind the
node again they share one object, where the style stands under `style`. Data have no object there, but they may have
another value: then the style takes its place, and this one member is lost.

* `named_again_is_read_back_iff` — what is read of a node that any number of lines have named, and when it is the same.
-/

namespace SearchLab

namespace Notation.FreeForm

open SearchLab.Graph

/-! ## One node -/

/-- A line names a node, and has some data and a style behind it. -/
def Names (id : String) (line : Line) (content : Bag × Bag) : Prop :=
  ∃ s, Statement.ofLine? line = .ok (some s) ∧ s.command = "NODE" ∧ s.args.map Arg.value = [id] ∧
    (s.data, s.style) = content

/-- The graph that consists of one node. -/
def lone (id : String) (data style : Bag) : Graph := addedNode Graph.empty id data style

theorem slot?_lone (id : String) (data style : Bag) : (lone id data style).slot? id = some 0 := by
  simp [lone, addedNode, slot?, Graph.empty]

theorem node?_lone (id : String) (data style : Bag) :
    (lone id data style).node? 0 = some { slot := 0, id, data, style } := by
  simp [lone, addedNode, node?, Graph.empty]

theorem nodeList_lone (id : String) (data style : Bag) :
    (lone id data style).nodeList = [{ slot := 0, id, data, style }] := by
  simp [lone, addedNode, nodeList, Graph.empty]

theorem modifyNode_lone (id : String) (data style data' style' : Bag) :
    (lone id data style).modifyNode 0 (fun n => { n with data := data', style := style' }) = lone id data' style' := by
  simp [lone, addedNode, modifyNode, Graph.empty]

/-- A node that is named again takes data and style into its own. -/
theorem apply_node_again {g : Graph} {s : Statement} {arg : Arg} {slot : Nat} (hcommand : s.command = "NODE")
    (hargs : s.args = [arg]) (hslot : g.slot? arg.value = some slot) : apply s g = mergeInto slot s.data s.style g := by
  have hone : Edit.check (fun _ => s.one "node setup") g = .ok arg g :=
    Edit.check_ok (by simp [Statement.one, hargs])
  simp only [apply, hcommand]
  refine (Edit.bind_ok hone).trans ((Edit.get_bind _ g).trans ?_)
  rw [hslot]

/-- What is merged into the only node of a graph is merged into its data and its style. -/
theorem mergeInto_lone {id : String} {data style data' style' : Bag} {g : Graph}
    (hdata : (Json.object data).Distinct) (hstyle : (Json.object style).Distinct)
    (hdata' : (Json.object data').Distinct) (hstyle' : (Json.object style').Distinct)
    (h : mergeInto 0 data' style' (lone id data style) = .ok () g) :
    g = lone id (Bag.merged data data') (Bag.merged style style') := by
  unfold mergeInto at h
  rw [node?_lone] at h
  dsimp only at h
  cases hfirst : Bag.mergeWith data' data with
  | error e part =>
      rw [hfirst] at h
      cases h
  | ok u mergedData =>
      rw [hfirst] at h
      dsimp only at h
      cases hsecond : Bag.mergeWith style' style with
      | error e part =>
          rw [hsecond] at h
          cases h
      | ok u mergedStyle =>
          rw [hsecond] at h
          cases h
          rw [modifyNode_lone, Bag.eq_merged_of_mergeWith hdata hdata' hfirst,
            Bag.eq_merged_of_mergeWith hstyle hstyle' hsecond]

/-- **Lines that name a node again** merge all their data into its data, and all their styles into its style. -/
theorem forM_applyLine_names {id : String} {lines : List Line} {payloads : List (Bag × Bag)} {data style : Bag}
    {g : Graph} (hnames : List.Forall₂ (Names id) lines payloads) (hdata : (Json.object data).Distinct)
    (hstyle : (Json.object style).Distinct) (h : lines.forM applyLine (lone id data style) = .ok () g) :
    g = lone id ((payloads.map Prod.fst).foldl Bag.merged data) ((payloads.map Prod.snd).foldl Bag.merged style) := by
  induction hnames generalizing data style with
  | nil =>
      cases h
      rfl
  | @cons line payload lines payloads hname _ ih =>
      obtain ⟨s, hstatement, hcommand, hvalues, rfl⟩ := hname
      obtain ⟨arg, hargs, rfl⟩ := List.map_eq_singleton_iff.mp hvalues
      obtain ⟨hdata', hstyle'⟩ := distinct_of_ofLine? hstatement
      obtain ⟨u, g₁, hfirst, hrest⟩ := Edit.of_bind_ok h
      rw [applyLine_of_statement hstatement, apply_node_again hcommand hargs (slot?_lone _ data style)] at hfirst
      obtain rfl := mergeInto_lone hdata hstyle hdata' hstyle' hfirst
      exact ih (Bag.distinct_merged hdata hdata') (Bag.distinct_merged hstyle hstyle') hrest

/-- The graph of lines that all name one node consists of this node, with everything merged. -/
theorem read_names {id : String} {lines : List Line} {payloads : List (Bag × Bag)} {g : Graph} (hlines : lines ≠ [])
    (hnames : List.Forall₂ (Names id) lines payloads) (h : read lines = .ok g) :
    g = lone id ((payloads.map Prod.fst).foldl Bag.merged []) ((payloads.map Prod.snd).foldl Bag.merged []) := by
  cases hnames with
  | nil => exact absurd rfl hlines
  | @cons line payload lines payloads hname hnames =>
      obtain ⟨s, hstatement, hcommand, hvalues, rfl⟩ := hname
      obtain ⟨arg, hargs, rfl⟩ := List.map_eq_singleton_iff.mp hvalues
      obtain ⟨hdata, hstyle⟩ := distinct_of_ofLine? hstatement
      have hfirst : applyLine line Graph.empty = .ok () (lone arg.value s.data s.style) := by
        rw [applyLine_of_statement hstatement]
        exact apply_node hcommand hargs rfl (by simp [slot?, Graph.empty])
      have hall : (line :: lines).forM applyLine Graph.empty = lines.forM applyLine (lone arg.value s.data s.style) :=
        Edit.bind_ok hfirst
      unfold read at h
      rw [hall] at h
      cases hrest : lines.forM applyLine (lone arg.value s.data s.style) with
      | error e part =>
          rw [hrest] at h
          cases h
      | ok u g' =>
          rw [hrest] at h
          cases h
          have hmerged := forM_applyLine_names hnames hdata hstyle hrest
          rw [hmerged]
          simp only [List.map_cons, List.foldl_cons, Bag.merged_nil]

/-! ## What is read of the node -/

/-- The document of a graph of one node is read, and so is the node; with a style, its data lose what they hold under
`style`. -/
theorem read_write_lone (name : String) {data style : Bag} (hunstyled : Unstyled data)
    (hlegible : Legible data style) :
    ∃ r m, Notation.read (Notation.write (lone name data style)) = .ok r ∧ r.nodeList = [m] ∧ m.id = name ∧
      m.style = style ∧
      m.data = if style = [] then lasting data else (lasting data).filter fun member => member.1 != "style" := by
  have harena : (lone name data style).Arena := arena_addedNode (Arena.empty none) data style (by simp [slot?])
  obtain ⟨r, hread, -, hcontent⟩ := read_of_arena harena rfl
    (fun n hn => by
      rw [nodeList_lone, List.mem_singleton] at hn
      exact hn ▸ hlegible)
    fun e he => by simp [lone, addedNode, Graph.edgeList, Graph.empty] at he
  have hnodes : r.nodeList.map (nodeEntry id) = (lone name data style).nodeList.map nodeCopy :=
    congrArg Content.nodes hcontent
  rw [nodeList_lone] at hnodes
  obtain ⟨m, hm, hentry⟩ := List.map_eq_singleton_iff.mp hnodes
  obtain ⟨hid, hcopy⟩ := Prod.mk.inj hentry
  rw [reread_of_unstyled (hunstyled.lasting [])] at hcopy
  obtain ⟨hdata, hstyle⟩ := Prod.mk.inj hcopy
  exact ⟨r, m, hread, hm, hid, hstyle, hdata⟩

/-- Data are what is read of them unless they hold something under `style` and there is a style besides. -/
theorem filter_lasting_eq_iff (data style : Bag) :
    (if style = [] then lasting data else (lasting data).filter fun member => member.1 != "style") = lasting data ↔
      ¬ ("style" ∈ data.keys ∧ style ≠ []) := by
  by_cases hstyle : style = []
  · simp [hstyle]
  · rw [if_neg hstyle, List.filter_eq_self]
    constructor
    · rintro hkept ⟨hkey, -⟩
      obtain ⟨m, hm, hname⟩ := List.mem_map.mp hkey
      have hlasting : m ∈ lasting data := by
        refine List.mem_filter.mpr ⟨hm, ?_⟩
        rw [hname]
        decide
      simpa [hname] using hkept m hlasting
    · intro hfree m hm
      have hkey : m.1 ∈ data.keys := List.mem_map_of_mem (List.mem_filter.mp hm).1
      rw [bne_iff_ne]
      rintro hname
      exact hfree ⟨hname ▸ hkey, hstyle⟩

/-- **A node that was named again and again is read back, but for what it holds under `style`.** Whatever lines name one
node, if they are accepted, the node has all their data and all their styles, merged in order. The document of the graph
is then read, and it has this one node, with its style. Its data are those that were written, less the marks of a
search, exactly unless one of the lines has something under `style` that is no object, and one of them an object there
that is not empty; then just this member is lost. Of what is written it is assumed that it reads back. -/
theorem named_again_is_read_back_iff {name : String} {lines : List Line} {payloads : List (Bag × Bag)} {g : Graph}
    (hlines : lines ≠ []) (hnames : List.Forall₂ (Names name) lines payloads) (hread : read lines = .ok g) :
    ∃ n, g.nodeList = [n] ∧ n.id = name ∧ n.data = (payloads.map Prod.fst).foldl Bag.merged [] ∧
      n.style = (payloads.map Prod.snd).foldl Bag.merged [] ∧
      ((withStyle (lasting n.data) n.style).ReadsBack →
        ∃ r m, Notation.read (Notation.write g) = .ok r ∧ r.nodeList = [m] ∧ m.id = name ∧ m.style = n.style ∧
          m.data = (if n.style = [] then lasting n.data
            else (lasting n.data).filter fun member => member.1 != "style") ∧
          (m.data = lasting n.data ↔
            ¬ ((∃ p ∈ payloads, "style" ∈ p.1.keys) ∧ ∃ p ∈ payloads, p.2 ≠ []))) := by
  have hlone := read_names hlines hnames hread
  generalize hdata : (payloads.map Prod.fst).foldl Bag.merged [] = data at hlone ⊢
  generalize hstyle : (payloads.map Prod.snd).foldl Bag.merged [] = style at hlone ⊢
  have htidy : Tidy data := (accepted_of_read hread).nodes (hlone ▸ node?_lone name data style)
  have hkeys : "style" ∈ data.keys ↔ ∃ p ∈ payloads, "style" ∈ p.1.keys := by
    rw [← hdata, Bag.mem_keys_foldl_merged]
    simp [Bag.keys]
  have hsome : style ≠ [] ↔ ∃ p ∈ payloads, p.2 ≠ [] := by
    rw [← hstyle, ne_eq, Bag.foldl_merged_eq_nil_iff, List.forall_mem_map]
    simp only [not_forall, exists_prop, ne_eq]
  refine ⟨{ slot := 0, id := name, data, style }, hlone ▸ nodeList_lone name data style, rfl, rfl, rfl, ?_⟩
  intro hlegible
  obtain ⟨r, m, hr, hm, hid, hmstyle, hmdata⟩ := read_write_lone name htidy.unstyled hlegible
  refine ⟨r, m, hlone ▸ hr, hm, hid, hmstyle, hmdata, ?_⟩
  rw [hmdata, ← hkeys, ← hsome]
  exact filter_lasting_eq_iff data style

/-! ## Two lines for one node -/

/-- A line that was written for a node names it. -/
theorem names_written {name : String} {line : Line} (data style : Bag)
    (hline : line.text = (joinLine ["NODE", Argument.write name] (payload? data style)).toList)
    (hread : (withStyle data style).ReadsBack) : Names name line (reread data style) := by
  obtain ⟨s, hstatement, hcommand, hvalues, -, hdata, hstyle⟩ := ofLine?_written "NODE" [name] [] hline
    (by decide) (by simp) (by simp) hread
  exact ⟨s, hstatement, hcommand, hvalues, Prod.ext hdata hstyle⟩

/-- Two lines that name a node are accepted if what they say can be merged. -/
theorem read_two {name : String} {first second : Line} {p q : Bag × Bag} (hfirst : Names name first p)
    (hsecond : Names name second q) (data style : Bag) (hdata : Bag.mergeWith q.1 p.1 = .ok () data)
    (hstyle : Bag.mergeWith q.2 p.2 = .ok () style) : read [first, second] = .ok (lone name data style) := by
  obtain ⟨s, hs, hcommand, hvalues, rfl⟩ := hfirst
  obtain ⟨t, ht, hcommand', hvalues', rfl⟩ := hsecond
  obtain ⟨arg, hargs, rfl⟩ := List.map_eq_singleton_iff.mp hvalues
  obtain ⟨arg', hargs', hsame⟩ := List.map_eq_singleton_iff.mp hvalues'
  have hadded : applyLine first Graph.empty = .ok () (lone arg.value s.data s.style) := by
    rw [applyLine_of_statement hs]
    exact apply_node hcommand hargs rfl (by simp [slot?, Graph.empty])
  have hmerged : applyLine second (lone arg.value s.data s.style) = .ok () (lone arg.value data style) := by
    have hslot : (lone arg.value s.data s.style).slot? arg'.value = some 0 := hsame ▸ slot?_lone _ _ _
    rw [applyLine_of_statement ht, apply_node_again hcommand' hargs' hslot, mergeInto, node?_lone]
    simp only [hdata, hstyle]
    rw [modifyNode_lone]
  have hall : [first, second].forM applyLine Graph.empty = .ok () (lone arg.value data style) :=
    (Edit.bind_ok hadded).trans (Edit.bind_ok hmerged)
  rw [read, hall]

/-- Two lines give a node data and styles, among the data a mark of a search. -/
def styledTwice : String :=
  "GENERIC\nNODE A \x7b\"h\":1,\"style\":\x7b\"color\":\"red\"\x7d\x7d\n" ++
    "NODE A \x7b\"state\":\"visited\",\"style\":\x7b\"width\":2\x7d\x7d"

theorem named_again_is_read_back_iff_sample :
    ∃ g, Notation.read styledTwice = .ok g ∧
      ∃ r m, Notation.read (Notation.write g) = .ok r ∧ r.nodeList = [m] ∧ m.data = [("h", .int 1)] ∧
        m.style = [("color", .text "red"), ("width", .int 2)] := by
  have hfirst : Names "A" ⟨2, "NODE A \x7b\"h\":1,\"style\":\x7b\"color\":\"red\"\x7d\x7d".toList⟩
      ([("h", .int 1)], [("color", .text "red")]) :=
    names_written [("h", .int 1)] [("color", .text "red")] rfl (by unfold Bag.ReadsBack; rfl)
  have hsecond : Names "A" ⟨3, "NODE A \x7b\"state\":\"visited\",\"style\":\x7b\"width\":2\x7d\x7d".toList⟩
      ([("state", .text "visited")], [("width", .int 2)]) :=
    names_written [("state", .text "visited")] [("width", .int 2)] rfl (by unfold Bag.ReadsBack; rfl)
  have hread := read_two hfirst hsecond [("h", .int 1), ("state", .text "visited")]
    [("color", .text "red"), ("width", .int 2)] rfl rfl
  refine ⟨_, hread, ?_⟩
  obtain ⟨n, -, -, hdata, hstyle, hback⟩ :=
    named_again_is_read_back_iff (List.cons_ne_nil _ _) (.cons hfirst (.cons hsecond .nil)) hread
  have hdata : n.data = [("h", .int 1), ("state", .text "visited")] := hdata
  have hstyle : n.style = [("color", .text "red"), ("width", .int 2)] := hstyle
  obtain ⟨r, m, hr, hm, -, hmstyle, -, hiff⟩ := hback <| by
    rw [hdata, hstyle]
    unfold Bag.ReadsBack
    rfl
  have hmdata : m.data = lasting n.data := hiff.mpr (by simp [Bag.keys])
  rw [hdata] at hmdata
  exact ⟨r, m, hr, hm, hmdata, hmstyle.trans hstyle⟩

/-- One line gives a node a number under `style`, the next one a style. -/
def styledOverValue : String :=
  "GENERIC\nNODE A \x7b\"style\":5,\"a\":1\x7d\nNODE A \x7b\"style\":\x7b\"color\":\"red\"\x7d\x7d"

/-- **A style takes the place of a value.** Where a node has a value under `style` and a style, both are kept, but only
the style is read of what is written. -/
theorem style_displaces_value :
    ∃ g n, Notation.read styledOverValue = .ok g ∧ g.nodeList = [n] ∧
      (withStyle (lasting n.data) n.style).ReadsBack ∧
      ∃ r m, Notation.read (Notation.write g) = .ok r ∧ r.nodeList = [m] ∧ m.id = n.id ∧ m.data ≠ lasting n.data := by
  have hfirst : Names "A" ⟨2, "NODE A \x7b\"style\":5,\"a\":1\x7d".toList⟩
      ([("style", .int 5), ("a", .int 1)], []) :=
    names_written [("style", .int 5), ("a", .int 1)] [] rfl (by unfold Bag.ReadsBack; rfl)
  have hsecond : Names "A" ⟨3, "NODE A \x7b\"style\":\x7b\"color\":\"red\"\x7d\x7d".toList⟩
      ([], [("color", .text "red")]) :=
    names_written [] [("color", .text "red")] rfl (by unfold Bag.ReadsBack; rfl)
  have hread := read_two hfirst hsecond [("style", .int 5), ("a", .int 1)] [("color", .text "red")] rfl rfl
  have hback : (withStyle (lasting [("style", .int 5), ("a", .int 1)]) [("color", .text "red")]).ReadsBack := by
    unfold Bag.ReadsBack
    rfl
  have hunstyled : Unstyled [("style", .int 5), ("a", .int 1)] := by simp [Unstyled, Bag.get?, Json.lookup, Json.int]
  obtain ⟨r, m, hr, hm, hid, -, hdata⟩ := read_write_lone "A" hunstyled hback
  have hlost : m.data = [("a", .int 1)] := hdata
  refine ⟨_, _, hread, nodeList_lone _ _ _, hback, r, m, hr, hm, hid, ?_⟩
  rw [hlost]
  exact fun hsame => absurd (congrArg List.length hsame) (by decide)

end Notation.FreeForm

end SearchLab
