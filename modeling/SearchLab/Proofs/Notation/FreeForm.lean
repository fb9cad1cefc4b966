import SearchLab.Notation.Reader
import SearchLab.Proofs.Graph.Operation
import SearchLab.Proofs.Notation.Payload
import SearchLab.Proofs.Notation.Statement

/-!
# Free-form graphs as text

The document of a free-form graph has a line for every node, then one for every edge, then those of the start and the
goal. Reading it adds the nodes one by one, so that an id leads to the node that was added for it, then the edges
between these nodes, and last the two ends. `Copied` says how far the reader has come: what it has added is what the
lines so far were written for.

* `read_write` — a free-form graph is read back from its document.
-/

namespace SearchLab

namespace Graph

theorem nodeList_push {g g' : Graph} {n : Node} (h : g'.nodes = g.nodes.push (some n)) :
    g'.nodeList = g.nodeList ++ [n] := by
  simp [nodeList, h]

theorem edgeList_push {g g' : Graph} {e : Edge} (h : g'.edges = g.edges.push (some e)) :
    g'.edgeList = g.edgeList ++ [e] := by
  simp [edgeList, h]

/-- Changing what was pushed last is pushing what was changed. -/
theorem modify_push {α : Type} (xs : Array α) (x : α) (f : α → α) :
    (xs.push x).modify xs.size f = xs.push (f x) := by
  apply Array.ext_getElem?
  intro i
  rw [Array.getElem?_modify, Array.getElem?_push, Array.getElem?_push]
  by_cases h : xs.size = i
  · simp [h]
  · simp [h, Ne.symm h]

end Graph

namespace Notation.FreeForm

open SearchLab.Graph

/-! ## What one statement does -/

/-- A graph with a node behind all others. -/
def addedNode (g : Graph) (id : String) (data style : Bag) : Graph :=
  { g with
    slots := g.slots.insert id g.nodes.size
    nodes := g.nodes.push (some { slot := g.nodes.size, id, data, style })
    needsRedraw := true }

/-- A graph with an edge behind all others. -/
def addedEdge (g : Graph) (source target : Nat) (bidirectional : Bool) (data style : Bag) : Graph :=
  { g with
    edges := g.edges.push (some { id := g.nextEdgeId, source, target, bidirectional, data, style })
    index := none
    needsRedraw := true }

theorem modifyNode_withNode (g : Graph) (id : String) (data style : Bag) :
    (g.withNode id 0 0 data).modifyNode g.nodes.size (fun n => { n with style }) = addedNode g id data style := by
  simp [modifyNode, withNode, addedNode, modify_push]

theorem modifyEdge_withEdge (g : Graph) (source target : Nat) (bidirectional : Bool) (data style : Bag) :
    (g.withEdge source target bidirectional data).restructured.modifyEdge g.nextEdgeId (fun e => { e with style }) =
      addedEdge g source target bidirectional data style := by
  have hplace : place? g.nextEdgeId = some g.edges.size := place?_eq_some_iff.mpr (.inl rfl)
  simp [modifyEdge, updateEdge, hplace, restructured, withEdge, redraw, addedEdge, modify_push]

theorem arena_addedNode {g : Graph} (h : g.Arena) {id : String} (data style : Bag) (hnew : g.slot? id = none) :
    (addedNode g id data style).Arena := by
  rw [← modifyNode_withNode]
  exact (h.withNode 0 0 data hnew).modifyNode g.nodes.size fun n => ⟨rfl, rfl, rfl, rfl⟩

theorem arena_addedEdge {g : Graph} (h : g.Arena) {source target : Nat} (bidirectional : Bool) (data style : Bag)
    (hsource : g.Live source) (htarget : g.Live target) :
    (addedEdge g source target bidirectional data style).Arena := by
  have hadded := (Mutation.addEdge g bidirectional data hsource htarget).arena h
  have hchanged := (Mutation.changeEdge _ g.nextEdgeId (f := fun e => { e with style })
    fun e => ⟨rfl, rfl, rfl⟩).arena hadded
  rw [← modifyEdge_withEdge]
  exact (Mutation.settings _ true _ _ _).arena hchanged

/-- A node that is named for the first time is added with its data and style. -/
theorem apply_node {g : Graph} {s : Statement} {arg : Arg} (hcommand : s.command = "NODE") (hargs : s.args = [arg])
    (hfree : g.isGrid = false) (hnew : g.slot? arg.value = none) :
    apply s g = .ok () (addedNode g arg.value s.data s.style) := by
  have hone : Edit.check (fun _ => s.one "node setup") g = .ok arg g :=
    Edit.check_ok (by simp [Statement.one, hargs])
  have hadd : addNode arg.value s.data g = .ok g.nodes.size (g.withNode arg.value 0 0 s.data) :=
    addNode_ok_iff.mpr ⟨hfree, hnew, rfl, rfl⟩
  simp only [apply, hcommand]
  refine (Edit.bind_ok hone).trans ((Edit.get_bind _ g).trans ?_)
  rw [hnew, ← modifyNode_withNode]
  exact Edit.bind_ok hadd

/-- An edge between two nodes is added with its data and style. -/
theorem apply_edge {g : Graph} {s : Statement} {a b : Arg} {source target : Nat} (hcommand : s.command = "EDGE")
    (hargs : s.args = [a, b]) (ha : g.slot? a.value = some source) (hb : g.slot? b.value = some target)
    (hsource : g.Live source) (htarget : g.Live target) :
    apply s g = .ok () (addedEdge g source target s.isBidirectional s.data s.style) := by
  have htwo : Edit.check (fun _ => s.two "edge setup") g = .ok (a, b) g :=
    Edit.check_ok (by simp [Statement.two, hargs])
  have hfirst : Edit.check (fun g => nodeArg g s a "edge setup") g = .ok source g :=
    Edit.check_ok (by simp [nodeArg, ha])
  have hsecond : Edit.check (fun g => nodeArg g s b "edge setup") g = .ok target g :=
    Edit.check_ok (by simp [nodeArg, hb])
  have hadd : addEdge source target s.isBidirectional s.data g =
      .ok g.nextEdgeId (g.withEdge source target s.isBidirectional s.data).restructured :=
    addEdge_ok_iff.mpr ⟨hsource, htarget, rfl, rfl⟩
  simp only [apply, hcommand]
  rw [← modifyEdge_withEdge]
  exact (Edit.bind_ok htwo).trans ((Edit.bind_ok hfirst).trans ((Edit.bind_ok hsecond).trans (Edit.bind_ok hadd)))

/-- An argument that names a node is found, and what follows is done with its slot. -/
theorem bind_node {g : Graph} {s : Statement} {arg : Arg} {slot : Nat} (hargs : s.args = [arg])
    (hslot : g.slot? arg.value = some slot) (phase : String) (next : Nat → Edit Graph Unit) :
    ((Edit.check fun _ => s.one phase) >>= fun arg =>
      (Edit.check fun g => nodeArg g s arg phase) >>= next) g = next slot g := by
  have hone : Edit.check (fun _ => s.one phase) g = .ok arg g :=
    Edit.check_ok (by simp [Statement.one, hargs])
  have hfound : Edit.check (fun g => nodeArg g s arg phase) g = .ok slot g :=
    Edit.check_ok (by simp [nodeArg, hslot])
  exact (Edit.bind_ok hone).trans (Edit.bind_ok hfound)

theorem apply_start {g : Graph} {s : Statement} {arg : Arg} {slot : Nat} (hcommand : s.command = "START")
    (hargs : s.args = [arg]) (hslot : g.slot? arg.value = some slot) : apply s g = Graph.setStart (some slot) g := by
  simp only [apply, hcommand]
  exact bind_node hargs hslot "start node indication" _

theorem apply_goal {g : Graph} {s : Statement} {arg : Arg} {slot : Nat} (hcommand : s.command = "GOAL")
    (hargs : s.args = [arg]) (hslot : g.slot? arg.value = some slot) : apply s g = Graph.setGoal (some slot) g := by
  simp only [apply, hcommand]
  exact bind_node hargs hslot "goal node indication" _

/-- A line does what the statement on it does. -/
theorem applyLine_of_statement {line : Line} {s : Statement} (h : Statement.ofLine? line = .ok (some s)) :
    applyLine line = apply s := by
  funext g
  have hread : Edit.check (fun _ => Statement.ofLine? line) g = .ok (some s) g := Edit.check_ok h
  exact Edit.bind_ok hread

/-! ## What a document says of a graph -/

/-- What a document says of a node, its data passed through `keep`. -/
def nodeEntry (keep : Bag → Bag) (n : Node) : String × Bag × Bag := (n.id, keep n.data, n.style)

/-- What a document says of an edge, its data passed through `keep`. -/
def edgeEntry (keep : Bag → Bag) (g : Graph) (e : Edge) : Option String × Option String × Bool × Bag × Bag :=
  (g.idOf? e.source, g.idOf? e.target, e.bidirectional, keep e.data, e.style)

/-- What a document says of a graph. -/
structure Content where
  nodes : List (String × Bag × Bag)
  edges : List (Option String × Option String × Bool × Bag × Bag)
  start : Option String
  goal : Option String

/-- The nodes of a graph in order, its edges in order between the ids of their ends, and the ids of the start and the
goal; data are passed through `keep`. -/
def content (keep : Bag → Bag) (g : Graph) : Content where
  nodes := g.nodeList.map (nodeEntry keep)
  edges := g.edgeList.map (edgeEntry keep g)
  start := g.start.bind g.idOf?
  goal := g.goal.bind g.idOf?

/-- Data that can be written behind a node or an edge: they have no style of their own, and what is written reads
back. -/
structure Writable (data style : Bag) : Prop where
  plain : data.get? "style" = none
  readsBack : (withStyle (lasting data) style).ReadsBack

/-- What is written of such data and their style is taken apart as it was. -/
theorem Writable.reread_eq {data style : Bag} (h : Writable data style) :
    reread (lasting data) style = (lasting data, style) :=
  reread_of_plain style (get?_lasting_eq_none [] h.plain)

/-- What is written of data and their style reads back, though it need not be taken apart as it was. -/
def Legible (data style : Bag) : Prop := (withStyle (lasting data) style).ReadsBack

/-- The bags that no line is longer for. -/
theorem writable_nil : Writable [] [] where
  plain := rfl
  readsBack := by
    unfold Bag.ReadsBack
    rfl

/-- The line of an edge names the ids of its ends. -/
theorem edgeLine_eq {g : Graph} {e : Edge} {a b : Node} (ha : g.node? e.source = some a)
    (hb : g.node? e.target = some b) :
    edgeLine g e = joinLine ("EDGE" :: [a.id, b.id].map Argument.write ++ flagOptions e.bidirectional)
      (payload? (lasting e.data) e.style) := by
  have hsource : writeId g e.source = Argument.write a.id := by simp [writeId, idOf?, ha]
  have htarget : writeId g e.target = Argument.write b.id := by simp [writeId, idOf?, hb]
  rw [edgeLine, hsource, htarget]
  rfl

/-! ## Reading node by node and edge by edge -/

/-- What is read of a node that was written. -/
def nodeCopy (n : Node) : String × Bag × Bag := (n.id, reread (lasting n.data) n.style)

/-- What is read of an edge that was written. -/
def edgeCopy (g : Graph) (e : Edge) : Option String × Option String × Bool × Bag × Bag :=
  (g.idOf? e.source, g.idOf? e.target, e.bidirectional, reread (lasting e.data) e.style)

/-- A graph that says of some nodes and edges of `g` what is written of them, and nothing else. -/
structure Copied (g : Graph) (nodes : List Node) (edges : List Edge) (r : Graph) : Prop where
  arena : r.Arena
  free : r.isGrid = false
  nodes : r.nodeList.map (nodeEntry id) = nodes.map nodeCopy
  edges : r.edgeList.map (edgeEntry id r) = edges.map (edgeCopy g)
  start : r.start = none
  goal : r.goal = none

namespace Copied

variable {g r : Graph} {nodes : List Node} {edges : List Edge}

theorem empty (g : Graph) : Copied g [] [] Graph.empty where
  arena := Arena.empty none
  free := rfl
  nodes := rfl
  edges := rfl
  start := rfl
  goal := rfl

/-- The ids are those of the nodes that were copied. -/
theorem ids (h : Copied g nodes edges r) : r.nodeList.map Node.id = nodes.map Node.id := by
  have hkeys := congrArg (List.map Prod.fst) h.nodes
  rw [List.map_map, List.map_map] at hkeys
  exact hkeys

/-- The id of a node that was copied leads to a node with this id. -/
theorem slot_of_mem (h : Copied g nodes edges r) {n : Node} (hn : n ∈ nodes) :
    ∃ slot, r.slot? n.id = some slot ∧ r.Live slot ∧ r.idOf? slot = some n.id := by
  have hmem : n.id ∈ r.nodeList.map Node.id := h.ids ▸ List.mem_map_of_mem hn
  obtain ⟨m, hm, hid⟩ := List.mem_map.mp hmem
  obtain ⟨slot, hslot⟩ := mem_nodeList.mp hm
  refine ⟨slot, (h.arena.lookup n.id slot).mpr ⟨m, hslot, hid⟩, live_iff.mpr ⟨m, hslot⟩, ?_⟩
  rw [idOf?, hslot, Option.map_some, hid]

/-- The id of a node that was not copied leads nowhere. -/
theorem slot?_eq_none (h : Copied g nodes edges r) {n : Node} (hn : n.id ∉ nodes.map Node.id) :
    r.slot? n.id = none := by
  cases hslot : r.slot? n.id with
  | none => rfl
  | some slot =>
      obtain ⟨m, hm, hid⟩ := (h.arena.lookup n.id slot).mp hslot
      have hmem : n.id ∈ r.nodeList.map Node.id := List.mem_map.mpr ⟨m, mem_nodeList.mpr ⟨slot, hm⟩, hid⟩
      exact absurd (h.ids ▸ hmem) hn

/-- The line of a node adds the node. -/
theorem node (h : Copied g nodes [] r) {n : Node} (hn : n.id ∉ nodes.map Node.id) (hdata : Legible n.data n.style)
    {line : Line} (hline : line.text = (nodeLine n).toList) :
    ∃ r', applyLine line r = .ok () r' ∧ Copied g (nodes ++ [n]) [] r' := by
  obtain ⟨s, hstatement, hcommand, hvalues, -, hsdata, hsstyle⟩ := ofLine?_written "NODE" [n.id] [] hline
    (by decide) (by simp) (by simp) hdata
  obtain ⟨arg, hargs, hvalue⟩ := List.map_eq_singleton_iff.mp hvalues
  have hnew : r.slot? arg.value = none := hvalue ▸ h.slot?_eq_none hn
  have happly := apply_node hcommand hargs h.free hnew
  rw [← applyLine_of_statement hstatement] at happly
  refine ⟨_, happly, ?_⟩
  have hpush : (addedNode r arg.value s.data s.style).nodeList =
      r.nodeList ++ [{ slot := r.nodes.size, id := arg.value, data := s.data, style := s.style }] :=
    nodeList_push rfl
  have hnone : r.edgeList = [] := by simpa using h.edges
  refine ⟨arena_addedNode h.arena s.data s.style hnew, h.free, ?_, congrArg (List.map _) hnone, h.start, h.goal⟩
  rw [hpush, List.map_append, List.map_append, h.nodes, hvalue, hsdata, hsstyle]
  rfl

/-- The lines of some nodes add these nodes. -/
theorem allNodes (h : Copied g nodes [] r) {rest : List Node} (hids : ((nodes ++ rest).map Node.id).Nodup)
    (hdata : ∀ n ∈ rest, Legible n.data n.style) {lines : List Line}
    (hlines : lines.map Line.text = rest.map fun n => (nodeLine n).toList) :
    ∃ r', lines.forM applyLine r = .ok () r' ∧ Copied g (nodes ++ rest) [] r' := by
  induction rest generalizing nodes r lines with
  | nil =>
      have hnone : lines = [] := by simpa using hlines
      subst hnone
      exact ⟨r, rfl, by rwa [List.append_nil]⟩
  | cons n more ih =>
      obtain ⟨line, others, rfl, hline, hothers⟩ := List.map_eq_cons_iff.mp hlines
      have hn : n.id ∉ nodes.map Node.id := by
        rw [List.map_append, List.map_cons] at hids
        exact fun hmem => (List.nodup_append.mp hids).2.2 n.id hmem n.id List.mem_cons_self rfl
      obtain ⟨r₁, hfirst, hcopied⟩ := h.node hn (hdata n List.mem_cons_self) hline
      have hsplit : nodes ++ n :: more = nodes ++ [n] ++ more := List.append_cons nodes n more
      obtain ⟨r₂, hrest, hall⟩ := ih hcopied (hsplit ▸ hids) (fun m hm => hdata m (List.mem_cons_of_mem n hm)) hothers
      exact ⟨r₂, (Edit.bind_ok hfirst).trans hrest, hsplit ▸ hall⟩

/-- The line of an edge adds the edge between the nodes that were copied for its ends. -/
theorem edge (hg : g.Arena) (h : Copied g g.nodeList edges r) {e : Edge} (he : e ∈ g.edgeList)
    (hdata : Legible e.data e.style) {line : Line} (hline : line.text = (edgeLine g e).toList) :
    ∃ r', applyLine line r = .ok () r' ∧ Copied g g.nodeList (edges ++ [e]) r' := by
  obtain ⟨p, hp⟩ := mem_edgeList.mp he
  obtain ⟨hsource, htarget⟩ := hg.ends hp
  obtain ⟨a, ha⟩ := live_iff.mp hsource
  obtain ⟨b, hb⟩ := live_iff.mp htarget
  obtain ⟨source, hslot, hlive, hid⟩ := h.slot_of_mem (mem_nodeList.mpr ⟨_, ha⟩)
  obtain ⟨target, hslot', hlive', hid'⟩ := h.slot_of_mem (mem_nodeList.mpr ⟨_, hb⟩)
  obtain ⟨s, hstatement, hcommand, hvalues, hflags, hsdata, hsstyle⟩ := ofLine?_written "EDGE" [a.id, b.id] _
    (hline.trans (by rw [edgeLine_eq ha hb])) (by decide) (by simp) (readsAsOption_flag _) hdata
  obtain ⟨a', rest, hargs, hvalue, hrest⟩ := List.map_eq_cons_iff.mp hvalues
  obtain ⟨b', rfl, hvalue'⟩ := List.map_eq_singleton_iff.mp hrest
  have hflag := isBidirectional_of_options hflags
  have happly := apply_edge hcommand hargs (hvalue ▸ hslot) (hvalue' ▸ hslot') hlive hlive'
  rw [← applyLine_of_statement hstatement] at happly
  refine ⟨_, happly, ?_⟩
  have hpush : (addedEdge r source target s.isBidirectional s.data s.style).edgeList = r.edgeList ++
      [{ id := r.nextEdgeId, source, target, bidirectional := s.isBidirectional, data := s.data,
         style := s.style }] :=
    edgeList_push rfl
  refine ⟨arena_addedEdge h.arena s.isBidirectional s.data s.style hlive hlive', h.free, h.nodes, ?_, h.start, h.goal⟩
  have hends : (g.idOf? e.source, g.idOf? e.target) = (some a.id, some b.id) := by
    rw [idOf?, idOf?, ha, hb]
    rfl
  obtain ⟨hfirst, hsecond⟩ := Prod.mk.inj hends
  have hold : edgeEntry id (addedEdge r source target s.isBidirectional s.data s.style) = edgeEntry id r := rfl
  rw [hpush, hold, List.map_append, List.map_append, h.edges, List.map_singleton, List.map_singleton, edgeEntry,
    edgeCopy, hid, hid', hflag, hsdata, hsstyle, hfirst, hsecond]
  rfl

/-- The lines of some edges add these edges. -/
theorem allEdges (hg : g.Arena) (h : Copied g g.nodeList edges r) {rest : List Edge}
    (hrest : ∀ e ∈ rest, e ∈ g.edgeList) (hdata : ∀ e ∈ rest, Legible e.data e.style) {lines : List Line}
    (hlines : lines.map Line.text = rest.map fun e => (edgeLine g e).toList) :
    ∃ r', lines.forM applyLine r = .ok () r' ∧ Copied g g.nodeList (edges ++ rest) r' := by
  induction rest generalizing edges r lines with
  | nil =>
      have hnone : lines = [] := by simpa using hlines
      subst hnone
      exact ⟨r, rfl, by rwa [List.append_nil]⟩
  | cons e more ih =>
      obtain ⟨line, others, rfl, hline, hothers⟩ := List.map_eq_cons_iff.mp hlines
      obtain ⟨r₁, hfirst, hcopied⟩ := h.edge hg (hrest e List.mem_cons_self) (hdata e List.mem_cons_self) hline
      obtain ⟨r₂, hothers, hall⟩ := ih hcopied (fun x hx => hrest x (List.mem_cons_of_mem e hx))
        (fun x hx => hdata x (List.mem_cons_of_mem e hx)) hothers
      have hsplit : edges ++ e :: more = edges ++ [e] ++ more := List.append_cons edges e more
      exact ⟨r₂, (Edit.bind_ok hfirst).trans hothers, hsplit ▸ hall⟩

end Copied

/-! ## The two ends -/

/-- The lines of an end, if there is one. -/
def endLines (g : Graph) (word : String) (slot : Option Nat) : List String :=
  (slot.bind g.idOf?).toList.map fun id => joinLine [word, Argument.write id] none

theorem endLine_eq (word id : String) : joinLine [word, Argument.write id] none =
    joinLine (word :: [id].map Argument.write ++ []) (payload? (lasting []) []) :=
  rfl

/-- The line of an end, if there is one, puts it at the node that was copied for it; `put` is what a statement with
such a line does to a graph with the nodes of `r`. -/
theorem read_end {g r t : Graph} {edges : List Edge} (h : Copied g g.nodeList edges r) (hnodes : t.nodes = r.nodes)
    (hslots : t.slots = r.slots) {word : String} (hword : ReadsAsCommand word) {put : Nat → Graph}
    (happly : ∀ {s arg slot}, s.command = word → s.args = [arg] → t.slot? arg.value = some slot → t.Live slot →
      apply s t = .ok () (put slot))
    {place : Option Nat} (hplace : ∀ s, place = some s → g.Live s) {lines : List Line}
    (hlines : lines.map Line.text = (endLines g word place).map String.toList) :
    (place = none ∧ lines.forM applyLine t = .ok () t) ∨
      ∃ slot, lines.forM applyLine t = .ok () (put slot) ∧ r.idOf? slot = place.bind g.idOf? := by
  cases place with
  | none =>
      obtain rfl : lines = [] := by simpa [endLines] using hlines
      exact .inl ⟨rfl, rfl⟩
  | some place =>
      obtain ⟨n, hn⟩ := live_iff.mp (hplace place rfl)
      obtain ⟨slot, hslot, hlive, hid⟩ := h.slot_of_mem (mem_nodeList.mpr ⟨place, hn⟩)
      have hname : g.idOf? place = some n.id := by rw [idOf?, hn, Option.map_some]
      rw [endLines, Option.bind_some, hname] at hlines
      obtain ⟨line, rfl, hline⟩ := List.map_eq_singleton_iff.mp hlines
      obtain ⟨s, hstatement, hcommand, hvalues, -⟩ := ofLine?_written word [n.id] []
        (hline.trans (congrArg String.toList (endLine_eq word n.id))) hword (by simp) (by simp)
        writable_nil.readsBack
      obtain ⟨arg, hargs, hvalue⟩ := List.map_eq_singleton_iff.mp hvalues
      have hslot' : t.slot? arg.value = some slot := by rw [hvalue, slot?, hslots, ← slot?, hslot]
      have hlive' : t.Live slot := by
        unfold Live node?
        rw [hnodes]
        exact hlive
      have hput := happly hcommand hargs hslot' hlive'
      rw [← applyLine_of_statement hstatement] at hput
      exact .inr ⟨slot, Edit.bind_ok hput, hid.trans hname.symm⟩

/-- The line of the start, if there is one, sets it to the node that was copied for it. -/
theorem read_start {g r : Graph} {edges : List Edge} (hg : g.Arena) (h : Copied g g.nodeList edges r)
    {lines : List Line} (hlines : lines.map Line.text = (endLines g "START" g.start).map String.toList) :
    ∃ slot redraw, lines.forM applyLine r = .ok () { r with start := slot, needsRedraw := redraw } ∧
      slot.bind r.idOf? = g.start.bind g.idOf? := by
  have hend := read_end h rfl rfl (by decide)
    (fun hcommand hargs hslot hlive => (apply_start hcommand hargs hslot).trans (setStart_of_live hlive))
    (fun _ => hg.start) hlines
  rcases hend with ⟨hstart, hread⟩ | ⟨slot, hread, hid⟩
  · refine ⟨none, r.needsRedraw, hread.trans ?_, by rw [hstart]; rfl⟩
    have hr : r.start = none := h.start
    exact congrArg (EStateM.Result.ok ()) (by rw [← hr])
  · exact ⟨some slot, true, hread, hid⟩

/-- The line of the goal, if there is one, sets it to the node that was copied for it, whatever the start is. -/
theorem read_goal {g r : Graph} {edges : List Edge} (hg : g.Arena) (h : Copied g g.nodeList edges r)
    (start : Option Nat) (redraw : Bool) {lines : List Line}
    (hlines : lines.map Line.text = (endLines g "GOAL" g.goal).map String.toList) :
    ∃ slot redraw', lines.forM applyLine { r with start, needsRedraw := redraw } =
        .ok () { r with start, goal := slot, needsRedraw := redraw' } ∧
      slot.bind r.idOf? = g.goal.bind g.idOf? := by
  have hend := read_end (t := { r with start, needsRedraw := redraw }) h rfl rfl (by decide)
    (fun hcommand hargs hslot hlive => (apply_goal hcommand hargs hslot).trans (setGoal_of_live hlive))
    (fun _ => hg.goal) hlines
  rcases hend with ⟨hgoal, hread⟩ | ⟨slot, hread, hid⟩
  · refine ⟨none, redraw, hread.trans ?_, by rw [hgoal]; rfl⟩
    have hr : r.goal = none := h.goal
    exact congrArg (EStateM.Result.ok ()) (by rw [← hr])
  · exact ⟨some slot, true, hread, hid⟩

/-! ## The whole document -/

theorem write_eq (g : Graph) : write g = "\n".intercalate
    (["GENERIC"] ++ g.nodeList.map nodeLine ++ [""] ++ g.edgeList.map (edgeLine g) ++ [""] ++
      endLines g "START" g.start ++ endLines g "GOAL" g.goal) :=
  rfl

/-- The lines of a document are the header, those of the nodes, those of the edges and those of the two ends. -/
theorem text_lines_write {g : Graph} (hg : g.Arena) :
    (lines (write g)).map Line.text =
      ("GENERIC" :: (g.nodeList.map nodeLine ++ (g.edgeList.map (edgeLine g) ++
        (endLines g "START" g.start ++ endLines g "GOAL" g.goal)))).map String.toList := by
  have hheader : Trimmed "GENERIC".toList := Trimmed.of_word (by decide)
  have hnode : ∀ t ∈ g.nodeList.map nodeLine, Trimmed t.toList := by
    intro t ht
    obtain ⟨n, _, rfl⟩ := List.mem_map.mp ht
    have hoptions : ∀ o ∈ ([] : List String), ReadsAsOption o.toList := by simp
    exact trimmed_written [n.id] (by decide : ReadsAsCommand "NODE") hoptions
  have hedge : ∀ t ∈ g.edgeList.map (edgeLine g), Trimmed t.toList := by
    intro t ht
    obtain ⟨e, he, rfl⟩ := List.mem_map.mp ht
    obtain ⟨p, hp⟩ := mem_edgeList.mp he
    obtain ⟨a, ha⟩ := live_iff.mp (hg.ends hp).1
    obtain ⟨b, hb⟩ := live_iff.mp (hg.ends hp).2
    rw [edgeLine_eq ha hb]
    exact trimmed_written [a.id, b.id] (by decide) (readsAsOption_flag e.bidirectional)
  have hend : ∀ word slot, ReadsAsCommand word → ∀ t ∈ endLines g word slot, Trimmed t.toList := by
    intro word slot hword t ht
    obtain ⟨id, _, rfl⟩ := List.mem_map.mp ht
    rw [endLine_eq]
    exact trimmed_written [id] hword (by simp)
  have hstart := hend "START" g.start (by decide)
  have hgoal := hend "GOAL" g.goal (by decide)
  have hempty : ∀ {texts : List String}, (∀ t ∈ texts, Trimmed t.toList) →
      (texts.map String.toList).filter (fun cs => !cs.isEmpty) = texts.map String.toList := by
    intro texts htexts
    rw [List.filter_eq_self]
    intro cs hcs
    obtain ⟨t, ht, rfl⟩ := List.mem_map.mp hcs
    simpa using (htexts t ht).ne_nil
  rw [write_eq, text_lines_intercalate (by simp)]
  · simp only [List.map_append, List.filter_append, hempty hnode, hempty hedge, hempty hstart, hempty hgoal]
    simp
  · intro t ht
    simp only [List.mem_append, List.mem_singleton] at ht
    rcases ht with (((((rfl | ht) | rfl) | ht) | rfl) | ht) | ht
    · exact .inr hheader
    · exact .inr (hnode t ht)
    · exact .inl rfl
    · exact .inr (hedge t ht)
    · exact .inl rfl
    · exact .inr (hstart t ht)
    · exact .inr (hgoal t ht)

/-- The document of a free-form graph whose addresses are right is read, as long as its data are. -/
theorem read_of_arena {g : Graph} (hg : g.Arena) (hfree : g.isGrid = false)
    (hnodes : ∀ n ∈ g.nodeList, Legible n.data n.style) (hedges : ∀ e ∈ g.edgeList, Legible e.data e.style) :
    ∃ r, Notation.read (Notation.write g) = .ok r ∧ r.isGrid = false ∧
      content id r =
        ⟨g.nodeList.map nodeCopy, g.edgeList.map (edgeCopy g), g.start.bind g.idOf?, g.goal.bind g.idOf?⟩ := by
  have hwrite : Notation.write g = write g := by simp [Notation.write, hfree]
  have htexts := text_lines_write hg
  rw [List.map_cons, List.map_append, List.map_append, List.map_append] at htexts
  obtain ⟨header, body, hlines, hheader, hbody⟩ := List.map_eq_cons_iff.mp htexts
  obtain ⟨nodeLines, others, rfl, hnodeLines, hothers⟩ := List.map_eq_append_iff.mp hbody
  obtain ⟨edgeLines, ends, rfl, hedgeLines, hends⟩ := List.map_eq_append_iff.mp hothers
  obtain ⟨startLines, goalLines, rfl, hstartLines, hgoalLines⟩ := List.map_eq_append_iff.mp hends
  rw [List.map_map] at hnodeLines hedgeLines
  obtain ⟨r₁, hread₁, hcopied₁⟩ := (Copied.empty g).allNodes hg.nodup_ids hnodes hnodeLines
  obtain ⟨r₂, hread₂, hcopied₂⟩ := hcopied₁.allEdges hg (fun e he => he) hedges hedgeLines
  obtain ⟨start, redraw, hread₃, hstart⟩ := read_start hg hcopied₂ hstartLines
  obtain ⟨goal, redraw', hread₄, hgoal⟩ := read_goal hg hcopied₂ start redraw hgoalLines
  have hbody : (nodeLines ++ (edgeLines ++ (startLines ++ goalLines))).forM applyLine Graph.empty =
      .ok () { r₂ with start, goal, needsRedraw := redraw' } := by
    rw [Edit.forM_append hread₁, Edit.forM_append hread₂, Edit.forM_append hread₃, hread₄]
  have hkind : Header.ofLine header = .ok .generic := by
    obtain ⟨number, text⟩ := header
    cases hheader
    rfl
  refine ⟨{ r₂ with start, goal, needsRedraw := redraw' }, ?_, hcopied₂.free, ?_⟩
  · rw [hwrite, Notation.read, hlines]
    simp only [hkind]
    rw [FreeForm.read, hbody]
  · have hcontent : content id { r₂ with start, goal, needsRedraw := redraw' } =
        ⟨r₂.nodeList.map (nodeEntry id), r₂.edgeList.map (edgeEntry id r₂), start.bind r₂.idOf?,
          goal.bind r₂.idOf?⟩ := rfl
    rw [hcontent, hcopied₂.nodes, hcopied₂.edges, hstart, hgoal]
    rfl

/-- A free-form graph whose addresses are right and whose data can be written is read back. -/
theorem read_write_of_arena {g : Graph} (hg : g.Arena) (hfree : g.isGrid = false)
    (hnodes : ∀ n ∈ g.nodeList, Writable n.data n.style) (hedges : ∀ e ∈ g.edgeList, Writable e.data e.style) :
    ∃ r, Notation.read (Notation.write g) = .ok r ∧ content id r = content lasting g := by
  obtain ⟨r, hread, -, hcontent⟩ := read_of_arena hg hfree (fun n hn => (hnodes n hn).readsBack)
    fun e he => (hedges e he).readsBack
  have hnodeCopy : ∀ n ∈ g.nodeList, nodeCopy n = nodeEntry lasting n := fun n hn =>
    congrArg (Prod.mk n.id) (hnodes n hn).reread_eq
  have hedgeCopy : ∀ e ∈ g.edgeList, edgeCopy g e = edgeEntry lasting g e := by
    intro e he
    rw [edgeCopy, (hedges e he).reread_eq]
    rfl
  refine ⟨r, hread, hcontent.trans ?_⟩
  rw [List.map_congr_left hnodeCopy, List.map_congr_left hedgeCopy]
  rfl

/-- **Free-form graphs are read back.** Whatever operations have made a free-form graph of the empty one: if no data
hold a style of their own, its document is read, and the graph that is read has the nodes in their order with their
data, less the keys of a search, and their styles, the edges in their order between the same ids, with their flags,
data and styles, and the same start and goal. Of data it is assumed that their written form reads back. -/
theorem read_write (ops : List Operation)
    (hnodes : ∀ n ∈ (runAll ops Graph.empty).nodeList, Writable n.data n.style)
    (hedges : ∀ e ∈ (runAll ops Graph.empty).edgeList, Writable e.data e.style) :
    ∃ r, Notation.read (Notation.write (runAll ops Graph.empty)) = .ok r ∧
      content id r = content lasting (runAll ops Graph.empty) := by
  have hmutated : Mutated Graph.empty (runAll ops Graph.empty) := mutated_runAll ⟨Arena.empty none, .refl⟩ ops
  have hfree : (runAll ops Graph.empty).isGrid = false := hmutated.isGrid
  exact read_write_of_arena hmutated.arena hfree hnodes hedges

/-- Some operations that use all that a document has: an id with a blank and one that is a line feed, data of a
search, a style, an edge that was turned around and a loop. -/
def sampleOperations : List Operation :=
  [.addNode "a b" [("state", .text "visited"), ("h", .int 3)], .addNode "\n" [],
    .setNode 1 [] [("color", .text "red")], .addEdge 0 1 true [("w", .int 2)], .addEdge 1 1 false [],
    .reorientEdge ⟨1⟩, .setGoal (some 1)]

theorem runAll_sample :
    (runAll sampleOperations Graph.empty).nodes =
      #[some { slot := 0, id := "a b", data := [("state", .text "visited"), ("h", .int 3)] },
        some { slot := 1, id := "\n", style := [("color", .text "red")] }] ∧
    (runAll sampleOperations Graph.empty).edges =
      #[some { id := ⟨1⟩, source := 1, target := 0, bidirectional := true, data := [("w", .int 2)] },
        some { id := ⟨2⟩, source := 1, target := 1, bidirectional := false }] := by
  simp [sampleOperations, runAll, Operation.run, Operation.edit, Edit.after, bind, EStateM.bind, pure, EStateM.pure,
    Graph.addNode, Graph.empty, isGrid, insertNode, Edit.modify_ok, modifyNode, modifyEdge, redraw, Graph.addEdge, node?, restructured, nextEdgeId, updateEdge, place?, reorientEdge,
    setGoal, checkSlot, edge?]

theorem read_write_sample :
    ∃ r, Notation.read (Notation.write (runAll sampleOperations Graph.empty)) = .ok r ∧
      content id r = content lasting (runAll sampleOperations Graph.empty) := by
  obtain ⟨hnodes, hedges⟩ := runAll_sample
  refine read_write sampleOperations ?_ ?_
  · intro n hn
    rw [nodeList, hnodes] at hn
    rcases List.mem_cons.mp hn with rfl | hn
    · exact ⟨rfl, by unfold Bag.ReadsBack; rfl⟩
    · obtain rfl := List.mem_singleton.mp hn
      exact ⟨rfl, by unfold Bag.ReadsBack; rfl⟩
  · intro e he
    rw [edgeList, hedges] at he
    rcases List.mem_cons.mp he with rfl | he
    · exact ⟨rfl, by unfold Bag.ReadsBack; rfl⟩
    · obtain rfl := List.mem_singleton.mp he
      exact writable_nil

end Notation.FreeForm

end SearchLab
