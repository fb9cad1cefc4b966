import SearchLab.Proofs.Game.BestLine
import SearchLab.Proofs.Game.Lasting

/-!
# Highlighted lines

To highlight a line, all edges are darkened, and then one edge is lit for each of its moves: the first that leads from
the position before the move to the one behind it. Edges are stored in the order of the moves, so where the moves of the
line are the first of their kind, each of these edges is that of its move.

* `edgeList_lights` — what switching lights on or off does to the stored edges;
* `Mirrors.lit_highlight` — which edges are highlighted;
* `best_line_is_highlighted` — the line of best moves after any tick of a session.
-/

namespace SearchLab

/-- An edge with its light switched on or off. -/
def Edge.lit (on : Bool) (e : Edge) : Edge := { e with data := e.data.set "highlighted" (.bool on) }

namespace Edge

/-- Whether an edge is highlighted. -/
def isLit (e : Edge) : Bool := e.data.isTruthy "highlighted"

theorem isLit_lit (on : Bool) (e : Edge) : (e.lit on).isLit = on := by
  rw [isLit, lit, Bag.isTruthy, Bag.get?_set, if_pos rfl]
  rfl

theorem lit_lit (on on' : Bool) (e : Edge) : (e.lit on).lit on' = e.lit on' := by
  rw [lit, lit, lit, Bag.set_set]

end Edge

namespace Graph

open SearchLab.Game (Move)
open SearchLab.Game.Tree (light edgesAlong hops)

variable {g : Graph}

/-! ## Lights -/

theorem edgeList_light (h : g.Arena) (on : Bool) {e₀ : Edge} (he₀ : e₀ ∈ g.edgeList) :
    (light on g e₀.id).edgeList = g.edgeList.map fun e => if e.id = e₀.id then e.lit on else e := by
  have hlight : (light on g e₀.id).edgeList = _ := h.edgeList_changeEdge e₀.id (Edge.lit on)
  rw [hlight]
  refine List.map_congr_left fun e he => ?_
  by_cases hid : e.id = e₀.id
  · simp [hid]
  · have hplace : place? e.id ≠ place? e₀.id := fun hplace => hid (congrArg Edge.id (h.eq_of_place? he he₀ hplace))
    rw [if_neg hplace, if_neg hid]

/-- Switching the lights of some edges. -/
theorem edgeList_lights (h : g.Arena) (on : Bool) {ids : List EdgeId} (hids : ∀ id ∈ ids, id ∈ g.edgeList.map Edge.id) :
    (ids.foldl (light on) g).edgeList = g.edgeList.map fun e => if e.id ∈ ids then e.lit on else e := by
  induction ids generalizing g with
  | nil => simp
  | cons id rest ih =>
      obtain ⟨e₀, he₀, rfl⟩ := List.mem_map.mp (hids id List.mem_cons_self)
      have hfirst := edgeList_light h on he₀
      have hnumbers : (light on g e₀.id).edgeList.map Edge.id = g.edgeList.map Edge.id := by
        rw [hfirst, List.map_map]
        exact List.map_congr_left fun e _ => by simp only [Function.comp_apply]; split <;> rfl
      have harena : (light on g e₀.id).Arena :=
        (Mutated.modifyEdge ⟨h, .refl⟩ e₀.id (f := Edge.lit on) fun _ => ⟨rfl, rfl, rfl⟩).arena
      rw [List.foldl_cons, ih harena fun id hid => hnumbers ▸ hids id (List.mem_cons_of_mem _ hid), hfirst, List.map_map]
      refine List.map_congr_left fun e _ => ?_
      have hid : (e.lit on).id = e.id := rfl
      by_cases hsame : e.id = e₀.id <;> by_cases hrest : e.id ∈ rest <;> simp [hsame, hrest, hid, Edge.lit_lit]

/-- Of edges without light, those are highlighted whose lights are switched on. -/
theorem filter_isLit {edges : List Edge} (hunlit : ∀ e ∈ edges, e.isLit = false) (ids : List EdgeId) :
    (edges.map fun e => if e.id ∈ ids then e.lit true else e).filter Edge.isLit =
      (edges.filter fun e => e.id ∈ ids).map (Edge.lit true) := by
  induction edges with
  | nil => rfl
  | cons e rest ih =>
      obtain ⟨he, hrest⟩ := List.forall_mem_cons.mp hunlit
      by_cases hid : e.id ∈ ids <;> simp [hid, he, Edge.isLit_lit, ih hrest]

/-! ## Edges along a line -/

/-- The first edge that was stored for a move. -/
def firstEdge? (g : Graph) (hop : Nat × Move) : Option Edge :=
  g.edgeList.find? fun e => e.source = hop.1 && e.target = hop.2.slot

theorem firstEdge?_spec {hop : Nat × Move} {e : Edge} (h : g.firstEdge? hop = some e) :
    e ∈ g.edgeList ∧ e.source = hop.1 ∧ e.target = hop.2.slot := by
  unfold firstEdge? at h
  exact ⟨List.mem_of_find?_eq_some h, by simpa using List.find?_some h⟩

/-- The way from one node to another goes along the first edge that was stored for it. -/
theorem head?_between (h : g.Plain) (hg : g.Arena) (hindexed : g.Indexed) (hop : Nat × Move) :
    (g.between hop.1 hop.2.slot).head? = (g.firstEdge? hop).map fun e => ⟨e, false⟩ := by
  rw [between, leaving_of_plain h hg hindexed, List.filter_map, List.head?_map, List.filter_filter, List.head?_filter,
    firstEdge?]
  congr 2
  funext e
  simp [EdgeView.target, Bool.and_comm, Bool.beq_eq_decide_eq]

/-- Each of some edges is the first that was stored for its move. -/
def FirstAlong (g : Graph) (steps : List (Nat × Move)) (edges : List Edge) : Prop :=
  List.Forall₂ (fun hop e => g.firstEdge? hop = some e) steps edges

theorem exists_firstAlong {steps : List (Nat × Move)} (h : ∀ hop ∈ steps, ∃ e, g.firstEdge? hop = some e) :
    ∃ edges, g.FirstAlong steps edges := by
  induction steps with
  | nil => exact ⟨[], .nil⟩
  | cons hop rest ih =>
      obtain ⟨⟨e, he⟩, hrest⟩ := List.forall_mem_cons.mp h
      obtain ⟨edges, hedges⟩ := ih hrest
      exact ⟨e :: edges, .cons he hedges⟩

namespace FirstAlong

variable {steps : List (Nat × Move)} {edges : List Edge}

theorem edgesAlong_eq (h : g.Plain) (hg : g.Arena) (hindexed : g.Indexed) {slot : Nat} {line : List Move}
    (hfirst : g.FirstAlong (hops slot line) edges) : edgesAlong g slot line = edges.map Edge.id := by
  induction line generalizing slot edges with
  | nil =>
      cases hfirst
      rfl
  | cons m line ih =>
      obtain ⟨e, rest, hfound, hrest, rfl⟩ := List.forall₂_cons_left_iff.mp hfirst
      have hhead : (g.between slot m.slot).head? = some ⟨e, false⟩ := by
        rw [head?_between h hg hindexed (slot, m), hfound, Option.map_some]
      rw [edgesAlong, hhead, List.map_cons, ← ih hrest]
      rfl

theorem stored (hfirst : g.FirstAlong steps edges) : ∀ e ∈ edges, e ∈ g.edgeList := by
  unfold FirstAlong at hfirst
  induction hfirst with
  | nil => exact fun e he => absurd he List.not_mem_nil
  | cons hfound _ ih => exact List.forall_mem_cons.mpr ⟨(firstEdge?_spec hfound).1, ih⟩

theorem sources (hfirst : g.FirstAlong steps edges) : edges.map Edge.source = steps.map Prod.fst := by
  unfold FirstAlong at hfirst
  induction hfirst with
  | nil => rfl
  | cons hfound _ ih => rw [List.map_cons, List.map_cons, ih, (firstEdge?_spec hfound).2.1]

/-- Where no node comes up twice, the edges along a line are those with their numbers. -/
theorem perm (hg : g.Arena) (hfirst : g.FirstAlong steps edges) (hnodup : (steps.map Prod.fst).Nodup) :
    (g.edgeList.filter fun e => e.id ∈ edges.map Edge.id).Perm edges := by
  refine (List.perm_ext_iff_of_nodup (hg.nodup_edgeIds.of_map.filter _) (hfirst.sources ▸ hnodup).of_map).mpr fun e => ?_
  rw [List.mem_filter, decide_eq_true_eq]
  constructor
  · rintro ⟨he, hid⟩
    obtain ⟨e', he', hsame⟩ := List.mem_map.mp hid
    rwa [List.inj_on_of_nodup_map hg.nodup_edgeIds he (hfirst.stored e' he') hsame.symm]
  · exact fun he => ⟨hfirst.stored e he, List.mem_map_of_mem he⟩

end FirstAlong

end Graph

namespace Game

variable {π υ : Type}

namespace Tree

/-- An edge leads where a move of a line leads, and says that it is taken by the same action. -/
def Carries (hop : Nat × Move) (e : Edge) : Prop :=
  e.source = hop.1 ∧ e.target = hop.2.slot ∧ e.data.get? "action" = some (.object hop.2.action)

variable [Position π υ]

/-- All edges of a tree say by which actions they are taken. -/
def Labelled (t : Tree π υ) : Prop := ∀ e ∈ t.graph.edgeList, ∃ action, e.data.get? "action" = some (.object action)

theorem lasts_labelled : Lasts (Labelled (π := π) (υ := υ)) where
  joins hmirrors ht hensure := by
    intro e he
    rw [edgeList_ensureNode hmirrors.toInStep hensure] at he
    exact ht e he
  grows {_ _ _ moves _ _} hmirrors ht hentry _ hgrow := by
    obtain ⟨new, hedges, hnew⟩ := stores_grow hmirrors.toInStep hentry hgrow
    intro e he
    rw [hedges] at he
    rcases List.mem_append.mp he with he | he
    · exact ht e he
    · obtain ⟨m, _, hsame⟩ := List.mem_map.mp (hnew ▸ List.mem_map_of_mem (f := fun e : Edge => (e.source, e.target, e.data)) he)
      simp only [Prod.mk.injEq] at hsame
      exact ⟨m.action, by rw [← hsame.2.2]; rfl⟩
  twins htwins ht e he := by
    have hdark : e.dark ∈ _ := htwins.graph.edgeList ▸ List.mem_map_of_mem he
    obtain ⟨old, hold, hsame⟩ := List.mem_map.mp hdark
    obtain ⟨action, haction⟩ := ht old hold
    refine ⟨action, ?_⟩
    rw [← e.get?_dark (by decide), ← hsame, old.get?_dark (by decide), haction]

omit [Position π υ] in
theorem sources_hops (slot : Nat) (line : List Move) :
    ((hops slot line).map Prod.fst).Sublist (slot :: line.map Move.slot) := by
  induction line generalizing slot with
  | nil => exact List.nil_sublist _
  | cons m line ih => exact (ih m.slot).cons_cons slot

/-- The first edge that was stored for the first move of its kind is that of the move. -/
theorem Mirrors.firstEdge? {t : Tree π υ} (h : t.Mirrors) {hop : Nat × Move}
    (hfirst : (t.movesOf hop.1).find? (·.slot == hop.2.slot) = some hop.2) :
    ∃ e, t.graph.firstEdge? hop = some e ∧ actionOf e = hop.2.action := by
  have hkept : t.graph.outgoing hop.1 = (t.movesOf hop.1).map drawn := by
    cases he : t.entry? hop.1 with
    | none => simp [movesOf, he] at hfirst
    | some e => simpa [movesOf, he] using h.kept he
  -- The edges from a node and its moves are searched side by side.
  have hsame := congrArg (List.find? fun step => step.1 == hop.2.slot) hkept
  rw [Graph.outgoing, List.find?_map, List.find?_map, List.find?_filter] at hsame
  have hmove : (t.movesOf hop.1).find? ((fun step => step.1 == hop.2.slot) ∘ drawn) = some hop.2 := hfirst
  rw [hmove] at hsame
  obtain ⟨e, he, hdrawn⟩ := Option.map_eq_some_iff.mp hsame
  refine ⟨e, ?_, (Prod.mk.inj hdrawn).2⟩
  rw [← he, Graph.firstEdge?]
  congr 1
  funext e
  simp [Bool.beq_eq_decide_eq]

/-- **Which edges are highlighted**: for each move of a line that comes to no position twice, the edge of this move. -/
theorem Mirrors.lit_highlight {t : Tree π υ} (h : t.Mirrors) (hlabelled : t.Labelled) {slot : Nat} {line : List Move}
    (hline : ∀ hop ∈ hops slot line, (t.movesOf hop.1).find? (·.slot == hop.2.slot) = some hop.2)
    (hnodup : (slot :: line.map Move.slot).Nodup) :
    ∃ edges, ((t.highlight slot line).graph.edgeList.filter Edge.isLit).Perm edges ∧
      List.Forall₂ Carries (hops slot line) edges := by
  -- Before the edges along the line are lit, the tree is as if there was no line.
  have hdark : (t.highlight slot []).Mirrors := (h.highlight slot []).1
  have hlabelled' : (t.highlight slot []).Labelled := lasts_labelled.twins (Twins.highlight t slot []) hlabelled
  have hfirst : ∀ hop ∈ hops slot line, ∃ e, (t.highlight slot []).graph.firstEdge? hop = some e ∧ actionOf e = hop.2.action :=
    fun hop hhop => hdark.firstEdge? (hline hop hhop)
  obtain ⟨edges, hedges⟩ := Graph.exists_firstAlong fun hop hhop => (hfirst hop hhop).imp fun _ => And.left
  have hids : ∀ id ∈ edges.map Edge.id, id ∈ (t.highlight slot []).graph.edgeList.map Edge.id := by
    intro id hid
    obtain ⟨e, he, rfl⟩ := List.mem_map.mp hid
    exact List.mem_map_of_mem (hedges.stored e he)
  have hlit : (t.highlight slot line).graph.edgeList = (t.highlight slot []).graph.edgeList.map
      fun e => if e.id ∈ edges.map Edge.id then e.lit true else e := by
    rw [← Graph.edgeList_lights hdark.arena true hids, ← hedges.edgesAlong_eq hdark.plain hdark.arena hdark.indexed]
    rfl
  have hunlit : ∀ e ∈ (t.highlight slot []).graph.edgeList, e.isLit = false := by
    have hall : (t.highlight slot []).graph.edgeList = _ :=
      Graph.edgeList_lights (g := t.graph.reindex) ((Graph.Mutation.reindex t.graph).arena h.arena) false fun _ hid => hid
    intro e he
    rw [hall] at he
    obtain ⟨e₀, he₀, rfl⟩ := List.mem_map.mp he
    have hnumber : e₀.id ∈ t.graph.edgeList.map Edge.id := List.mem_map_of_mem he₀
    rw [if_pos hnumber, Edge.isLit_lit]
  refine ⟨edges.map (Edge.lit true), ?_, ?_⟩
  · rw [hlit, Graph.filter_isLit hunlit]
    exact (hedges.perm hdark.arena ((sources_hops slot line).nodup hnodup)).map _
  · refine List.forall₂_map_right_iff.mpr (((List.forall₂_and_left _ _).mpr ⟨hfirst, hedges⟩).imp ?_)
    rintro hop e ⟨⟨e', he', haction⟩, he⟩
    obtain rfl := Option.some.inj (he'.symm.trans he)
    obtain ⟨hstored, hsource, htarget⟩ := Graph.firstEdge?_spec he
    obtain ⟨action, hlabel⟩ := hlabelled' _ hstored
    refine ⟨hsource, htarget, ?_⟩
    have hread : actionOf e' = action := by rw [actionOf, hlabel]
    rw [Edge.lit, Bag.get?_set, if_neg (by decide), hlabel, ← haction, hread]

/-- The line of best moves of a tree in which verdicts are written down, once it is highlighted. -/
theorem Mirrors.highlight_bestLine [Score υ] (hstrict : Score.Strict υ) {t : Tree π υ} (h : t.Mirrors)
    (hlabelled : t.Labelled) (hjustified : t.Justified) (root : Nat) :
    let line := t.bestLine root
    let t' := t.highlight root line
    t'.IsBestLine root line ∧ (root :: line.map Move.slot).Nodup ∧
      (∀ m, t'.bestMove? (endOf root line) = some m → m.slot ∈ root :: line.map Move.slot) ∧
      ∃ edges, (t'.graph.edgeList.filter Edge.isLit).Perm edges ∧ List.Forall₂ Carries (hops root line) edges := by
  have hline := hjustified.bestLine_isBestLine hstrict root
  have hnodup := nodup_bestLine h.toInStep root
  refine ⟨hline, hnodup, fun m hm => hjustified.end_of_bestLine hstrict h.toInStep hm, ?_⟩
  exact h.lit_highlight hlabelled (fun hop hhop => (hjustified.bestMove hstrict (hline hop hhop).1).1) hnodup

end Tree

/-- Where the worth of a position is at hand. -/
theorem Evaluation.end_of_leaf [Position π υ] [Score υ] {t : Tree π υ} {slot : Nat} {e : Entry π υ} {u : υ}
    (he : t.entry? slot = some e) (h : approach t slot = .ok (.leaf u)) :
    Position.isTerminal e.position = true ∨ e.moves = none ∨ e.moves = some [] := by
  unfold approach at h
  rw [he] at h
  dsimp only at h
  cases hended : Position.isTerminal e.position with
  | true => exact .inl rfl
  | false =>
      cases hmoves : e.moves with
      | none => exact .inr (.inl rfl)
      | some moves =>
          cases moves with
          | nil => exact .inr (.inr rfl)
          | cons m rest =>
              rw [hended, hmoves] at h
              cases hplayer : Position.player e.position <;> simp [hplayer] at h

namespace Session

open SearchLab.Game.Tree (hops endOf Carries)

/-- The step that a call is. -/
def Call.toStep (rules : Rules π) : Call π → Step π
  | .tick expansionTime evaluationTime => .tick rules expansionTime evaluationTime
  | .setRoot p => .setRoot p

section

variable [Position π υ] [Score υ]

theorem runAll_eq_play (rules : Rules π) (calls : List (Call π)) (s : Session π υ) :
    runAll rules calls s = play (calls.map (Call.toStep rules)) s := by
  induction calls generalizing s with
  | nil => rfl
  | cons call rest ih =>
      have hfirst : Call.run rules s call = (call.toStep rules).run s := by cases call <;> rfl
      rw [runAll, List.foldl_cons, hfirst]
      exact ih _

/-- The tree of a session mirrors its moves, and says by which actions they are taken. -/
theorem labelled_runAll {rules : Rules π} {fresh : Engine π υ} (hfresh : Engine.ofRules rules = .ok fresh) (depth : Nat)
    (configuration : Configuration) (calls : List (Call π)) :
    (runAll rules calls (ofEngine fresh depth configuration)).Mirrors ∧
      (runAll rules calls (ofEngine fresh depth configuration)).engine.tree.Labelled := by
  have hbegun := mirrors_ofEngine hfresh depth configuration
  obtain ⟨p, _, rfl⟩ := Engine.ofRules_spec hfresh
  have hnone : (Tree.ofRoot p : Tree π υ).graph.edgeList = [] := by
    obtain ⟨slot, isNew, t, hensure, _⟩ := Tree.ensureNode_spec (Tree.inStep_empty : ({} : Tree π υ).InStep) p
    have hedges := Tree.edgeList_ensureNode Tree.inStep_empty hensure
    rw [Tree.ofRoot, hensure]
    exact hedges
  have hlabelled : (Tree.ofRoot p : Tree π υ).Labelled := fun e he => by simp [hnone] at he
  rw [runAll_eq_play]
  exact ⟨mirrors_play _ hbegun, Tree.lasts_labelled.play _ hbegun hlabelled⟩

end

/-- **The line of best moves.** Take any game, whether its moves lead to the same positions, or back, or twice to one
position, and a session that has begun with nothing known of it. After any ticks and changes of the root, with any
budgets and any time, take another tick, and the line that it reports. Each of its moves is the first of the best moves
of the position before it, the root or where the last move has led, and is kept among the moves of that position. No
position comes up twice, and the line goes on until no best move is noted or one leads to a position that has come up.
The edges that are highlighted are one for each move of the line; it leads where the move leads and is taken by the same
action.

In a game without cycles, let the tick say that the evaluation is done. Then the line ends at a position of the same
worth as the root: the game ends there, or it was not expanded, or there are no moves. -/
theorem best_line_is_highlighted [Position π Float] {rules : Rules π} {fresh : Engine π Float}
    (hfresh : Engine.ofRules rules = .ok fresh) (depth : Nat) (configuration : Configuration) (calls : List (Call π))
    (expansionTime evaluationTime : Nat) :
    let before := runAll rules calls (ofEngine fresh depth configuration)
    let report := (tick rules expansionTime evaluationTime before).1
    let s := (tick rules expansionTime evaluationTime before).2
    let t := s.engine.tree
    let line := report.line
    (∀ hop ∈ hops s.root line, t.bestMove? hop.1 = some hop.2 ∧ hop.2 ∈ t.movesOf hop.1) ∧
    (s.root :: line.map Move.slot).Nodup ∧
    (∀ m, t.bestMove? (endOf s.root line) = some m → m.slot ∈ s.root :: line.map Move.slot) ∧
    (∃ edges, (t.graph.edgeList.filter Edge.isLit).Perm edges ∧
      List.Forall₂ Carries (hops s.root line) edges) ∧
    ∀ G, rules.Within G → (∀ p, .setRoot p ∈ calls → p ∈ G) → rules.Acyclic G → report.evaluationDone = true →
      ∃ u e, t.utility? s.root = some u ∧ t.entry? (endOf s.root line) = some e ∧ e.utility = some u ∧
        (Position.isTerminal e.position = true ∨ e.moves = none ∨ e.moves = some []) := by
  intro before report s t line
  -- What is written down and where it comes from holds of any game.
  have hall : rules.Within Set.univ := ⟨fun _ => Set.mem_univ _, fun _ _ _ _ => Set.mem_univ _⟩
  have hanywhere : ∀ p, .setRoot p ∈ calls → p ∈ Set.univ := fun _ _ => Set.mem_univ _
  have hbegun := tracing_ofEngine hall hfresh depth configuration
  have hbefore := tracing_runAll hall hanywhere hbegun
  have hstep : t.InStep := (tracing_tick hall expansionTime evaluationTime hbefore).1.inStep
  have hjustified : t.Justified := by
    refine justified_tick hall expansionTime evaluationTime hbefore (justified_runAll hall hanywhere hbegun ?_)
    obtain ⟨p, _, rfl⟩ := Engine.ofRules_spec hfresh
    exact .ofRoot p
  obtain ⟨hmirrors, hlabelled⟩ := labelled_runAll hfresh depth configuration calls
  -- The tree before the line is highlighted.
  let dark := (before.evaluating rules expansionTime evaluationTime).state.2.tree
  have hdark : dark.Justified := hjustified.of_entries rfl
  have htwins : Tree.Twins dark t := Tree.Twins.highlight dark s.root line
  obtain ⟨hbest, hnodup, hend, hlit⟩ := Tree.Mirrors.highlight_bestLine Score.strict_double
    (hmirrors.evaluating rules expansionTime evaluationTime).1
    (Tree.lasts_labelled.twins htwins.symm (Tree.lasts_labelled.tick rules expansionTime evaluationTime hmirrors hlabelled))
    hdark s.root
  refine ⟨hbest, hnodup, hend, hlit, fun G hwithin hcalls hacyclic hdone => ?_⟩
  have hline : line = t.bestLine s.root := (Tree.bestLine_highlight dark s.root line s.root).symm
  obtain ⟨htracing, hended⟩ := tracing_tick hwithin expansionTime evaluationTime
    (tracing_runAll hwithin hcalls (tracing_ofEngine hwithin hfresh depth configuration))
  have hfollows := htracing.follows_to_end (hended hdone)
  obtain ⟨u, hu⟩ := hfollows.underway.root_noted
  have hclear : ∀ slot, Evaluation.Clear (Evaluation.approach t) slot := fun _ =>
    Evaluation.clear_of_tree fun y _ => htracing.obeys.acyclic hstep hacyclic y
  obtain ⟨hlast, hleaf⟩ := hjustified.end_of_known Score.strict_double hstep hclear hfollows.underway.right hu
  rw [← hline] at hlast hleaf
  obtain ⟨e, he, hutility⟩ := Option.bind_eq_some_iff.mp hlast
  exact ⟨u, e, hu, he, hutility, Evaluation.end_of_leaf he hleaf⟩

/-- A session goes on from another root, and evaluates all that is there. -/
theorem best_line_is_highlighted_sample :
    let rules := Table.twoPly.rules none
    let left : Place := ⟨"left", "left", some .min, false, 0.0, some 0.5,
      [[("to", .text "lost")], [("to", .text "even")]]⟩
    ∃ (fresh : Engine Place Float) (time : Nat), Engine.ofRules rules = .ok fresh ∧
      let before := runAll rules [.tick 9 1, .setRoot left] (ofEngine fresh 1 {})
      let report := (tick rules 0 time before).1
      let s := (tick rules 0 time before).2
      let t := s.engine.tree
      report.evaluationDone = true ∧
      (∃ edges, (t.graph.edgeList.filter Edge.isLit).Perm edges ∧ List.Forall₂ Carries (hops s.root report.line) edges) ∧
      ∃ u e, t.utility? s.root = some u ∧ t.entry? (endOf s.root report.line) = some e ∧ e.utility = some u := by
  intro rules left
  obtain ⟨fresh, hfresh⟩ : ∃ fresh : Engine Place Float, Engine.ofRules rules = .ok fresh := ⟨_, rfl⟩
  have hwithin : rules.Within {p | p ∈ Table.twoPly.places} := Table.twoPly.within none
  have hplayer : Peopled rules {p | p ∈ Table.twoPly.places} := peopled_twoPly
  have hcalls : ∀ p, Call.setRoot p ∈ [Call.tick 9 1, .setRoot left] → p ∈ {p | p ∈ Table.twoPly.places} := by
    simp [left, Table.twoPly]
  have htracing := tracing_runAll hwithin hcalls (tracing_ofEngine hwithin hfresh 1 {})
  have hlimit : (runAll rules [.tick 9 1, .setRoot left] (ofEngine fresh 1 {})).configuration.maxSteps = .unlimited := by
    rw [configuration_runAll]
    rfl
  obtain ⟨time, hends⟩ := tick_ends hwithin hplayer htracing hlimit 0
  obtain ⟨_, _, _, hlit, hlast⟩ := best_line_is_highlighted hfresh 1 {} [.tick 9 1, .setRoot left] 0 time
  obtain ⟨u, e, hu, he, hutility, _⟩ := hlast _ hwithin hcalls Table.twoPly_acyclic (hends time (Nat.le_refl time))
  exact ⟨fresh, time, hfresh, hends time (Nat.le_refl time), hlit, u, e, hu, he, hutility⟩

end Session

end Game

end SearchLab
