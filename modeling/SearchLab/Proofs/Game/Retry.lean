import SearchLab.Proofs.Game.Slicing

/-!
# A step ends, and one that fails is tried again

A step of the deepening search goes round in a loop until it has come to a node that is to be expanded, or to the end.
`turn` is one round of it, and `loop` goes round so often at most; both write down the nodes that the engine is asked for.
All of this holds of every game, every engine and every search: there may be cycles, the root may be an end, and the search
may have failed before.

* `turn_spec` — a turn leaves the loop with what the step comes to, or has come closer to that by its `work`;
* `ComesTo` — where a search is when it has come to a node, and what it has counted by then;
* `steps_end_and_are_retried` — a step ends within its work, asks for one node at most, and asks for it again if that fails.
-/

namespace SearchLab.Game

variable {π υ : Type} [Position π υ]

/-! ## Positions stay -/

namespace Tree

variable {slot : Nat} {entry : Entry π υ}

/-- A position that joins a tree leaves those that are there alone, also where it finds no place. -/
theorem keeps_ensureNode (p : π) : Edit.Keeps (fun t : Tree π υ => t.entry? slot = some entry) (ensureNode p) := by
  intro t ht
  unfold Edit.after ensureNode
  cases hfound : t.graph.slot? (Position.id p) with
  | some found => exact ht
  | none =>
      cases hadd : Graph.addNode (Position.id p) newData t.graph with
      | error err g => exact ht
      | ok new g =>
          by_cases hnew : new = t.entries.size
          · have hne : slot ≠ t.entries.size := Nat.ne_of_lt (lt_size ht)
            simp only [hnew, if_true, entry?, Array.getElem?_push, if_neg hne]
            exact ht
          · simp only [if_neg hnew]
            exact ht

omit [Position π υ] in
theorem keeps_link (source target : Nat) (action : Action) :
    Edit.Keeps (fun t : Tree π υ => t.entry? slot = some entry) (link source target action) := by
  intro t ht
  unfold Edit.after link
  cases Graph.addEdge source target false [("action", .object action)] t.graph <;> exact ht

theorem addMove_eq (source : Nat) (branch : Action × π) :
    (addMove source branch : Edit (Tree π υ) Move) = (do
      let found ← ensureNode branch.2
      let _ ← link source found.1 branch.1
      let t ← get
      pure ⟨t.positionId found.1, found.1, branch.1⟩) := by
  funext t
  cases hensure : ensureNode branch.2 t with
  | error err t' =>
      rw [Edit.bind_error hensure]
      simp only [addMove, hensure]
  | ok found t' =>
      rw [Edit.bind_ok hensure]
      cases hlink : link source found.1 branch.1 t' with
      | error err t'' =>
          rw [Edit.bind_error hlink]
          simp only [addMove, hensure, hlink]
      | ok id t'' =>
          rw [Edit.bind_ok hlink]
          simp only [addMove, hensure, hlink]
          rfl

theorem addMoves_cons (source : Nat) (branch : Action × π) (rest : List (Action × π)) :
    (addMoves source (branch :: rest) : Edit (Tree π υ) (List Move)) = (do
      let move ← addMove source branch
      let moves ← addMoves source rest
      pure (move :: moves)) := by
  funext t
  cases hadd : addMove source branch t with
  | error err t' =>
      rw [Edit.bind_error hadd]
      simp only [addMoves, hadd]
  | ok move t' =>
      rw [Edit.bind_ok hadd]
      cases hmoves : addMoves source rest t' with
      | error err t'' =>
          rw [Edit.bind_error hmoves]
          simp only [addMoves, hadd, hmoves]
      | ok moves t'' =>
          rw [Edit.bind_ok hmoves]
          simp only [addMoves, hadd, hmoves]
          rfl

/-- Moves that are added leave the positions alone that are there, also where one of them cannot be added. -/
theorem keeps_addMoves (source : Nat) (branches : List (Action × π)) :
    Edit.Keeps (fun t : Tree π υ => t.entry? slot = some entry) (addMoves source branches) := by
  induction branches with
  | nil => exact .pure []
  | cons branch rest ih =>
      rw [addMoves_cons, addMove_eq]
      refine .bind ?_ fun move => .bind ih fun moves => .pure (move :: moves)
      refine .bind (keeps_ensureNode branch.2) fun found => .bind (keeps_link source found.1 branch.1) fun _ => ?_
      exact .bind_get fun t _ => .pure _

end Tree

/-- A call that fails leaves all positions where they are, also where the graph refuses a part of the moves. -/
theorem Engine.entry?_of_failed {rules : Rules π} {slot other : Nat} {entry : Entry π υ} {e e' : Engine π υ} {err : Error}
    (hfails : expandNode rules slot e = .error err e') (hentry : e.tree.entry? other = some entry) :
    e'.tree.entry? other = some entry := by
  unfold expandNode at hfails
  split at hfails
  · cases hfails
    exact hentry
  · rename_i own _
    dsimp only at hfails
    split at hfails
    · cases hfails
    split at hfails
    · cases hfails
    split at hfails
    · cases hfails
    split at hfails
    · cases hfails
      exact hentry
    · rename_i branches _
      unfold growTree Tree.grow at hfails
      have hkept := Tree.keeps_addMoves slot branches e.tree hentry
      cases hadd : Tree.addMoves slot branches e.tree with
      | ok moves t =>
          simp only [hadd] at hfails
          cases hfails
      | error err' t =>
          rw [Edit.after_error hadd] at hkept
          simp only [hadd] at hfails
          cases hfails
          exact hkept

namespace Deepening

/-- Where the game goes on, it still does after a call that fails. -/
theorem isInner_of_failed {rules : Rules π} {slot other : Nat} {e e' : Engine π υ} {err : Error}
    (hfails : Engine.expandNode rules slot e = .error err e') (hinner : isInner e.tree other = true) :
    isInner e'.tree other = true := by
  obtain ⟨entry, hentry, hopen⟩ := isInner_iff.mp hinner
  exact isInner_iff.mpr ⟨entry, Engine.entry?_of_failed hfails hentry, hopen⟩

/-! ## The loop of a step -/

/-- Asks the engine for the node that a search has come to. Where that fails, the search stays there. -/
def ask (rules : Rules π) (slot : Nat) : Edit (Deepening × Engine π υ) (Option Expansion) := fun (d, e) =>
  match Engine.expandNode rules slot e with
  | .error err e => .error err (d, e)
  | .ok x e => .ok (some x) (d.opened (x.moves.map Move.slot), e)

/-- A search that comes to a node asks for it. -/
theorem step_of_seek (rules : Rules π) {d d' : Deepening} {e : Engine π υ} {slot : Nat}
    (h : d.seek (isInner e.tree) = (some slot, d')) : step rules (d, e) = ask rules slot (d', e) := by
  simp only [step, h]
  rfl

/-- A step on its way: the search, the engine, and the nodes that the engine was asked for. -/
structure Stepping (π υ : Type) where
  search : Deepening
  engine : Engine π υ
  asked : List Nat := []

/-- What a step comes to, with the nodes that the engine was asked for. -/
abbrev Taken (π υ : Type) : Type :=
  EStateM.Result Error (Deepening × Engine π υ) (Option Expansion) × List Nat

/-- What a turn of the loop comes to: it leaves the loop, or goes on. -/
inductive Turn (π υ : Type) where
  | left (taken : Taken π υ)
  | on (stepping : Stepping π υ)

/-- One turn of the loop: the next pass begins, a node is expanded, or the search moves on along the line. -/
def turn (rules : Rules π) (s : Stepping π υ) : Turn π υ :=
  let d := s.search
  match d.stack with
  | [] => if d.isSettled then .left (.ok none (d, s.engine), s.asked) else .on { s with search := d.nextPass }
  | ⟨slot, depth, none⟩ :: below =>
    if isInner s.engine.tree slot && depth < d.limit then .left (ask rules slot (d, s.engine), slot :: s.asked)
    else .on { s with search := { d with stack := below } }
  | ⟨_, _, some []⟩ :: below => .on { s with search := { d with stack := below } }
  | ⟨slot, depth, some (child :: rest)⟩ :: below =>
    .on { s with search := { d with stack := ⟨child, depth + 1, none⟩ :: ⟨slot, depth, some rest⟩ :: below } }

/-- The loop, left after so many turns at most. -/
def loop (rules : Rules π) : Nat → Stepping π υ → Option (Taken π υ)
  | 0, _ => none
  | turns + 1, s =>
    match turn rules s with
    | .left taken => some taken
    | .on s => loop rules turns s

/-- What a step on its way comes to. -/
def taken (rules : Rules π) (s : Stepping π υ) : Taken π υ :=
  (step rules (s.search, s.engine), (s.search.seek (isInner s.engine.tree)).1.toList ++ s.asked)

/-- Searches that come to the same node take the same step. -/
theorem taken_congr (rules : Rules π) {s : Stepping π υ} {d : Deepening}
    (h : s.search.seek (isInner s.engine.tree) = d.seek (isInner s.engine.tree)) :
    taken rules s = taken rules { s with search := d } := by
  simp only [taken, step, h]

theorem work_pos (d : Deepening) : 0 < d.work := by
  unfold work passesLeft
  split <;> omega

/-- **A turn leaves the loop with what the step comes to**, or goes on to the same with less work. -/
theorem turn_spec (rules : Rules π) (s : Stepping π υ) :
    turn rules s = .left (taken rules s) ∨
      ∃ s', turn rules s = .on s' ∧ s'.search.work < s.search.work ∧ taken rules s = taken rules s' := by
  obtain ⟨d, e, asked⟩ := s
  cases hs : d.stack with
  | nil =>
      cases hsettled : d.isSettled with
      | true =>
          left
          simp only [turn, hs, hsettled, if_true, taken, step, seek_of_settled hs hsettled]
          rfl
      | false =>
          right
          refine ⟨⟨d.nextPass, e, asked⟩, by simp [turn, hs, hsettled], work_nextPass_lt hsettled, ?_⟩
          exact taken_congr rules (seek_of_finished hs hsettled)
  | cons frame below =>
      obtain ⟨slot, depth, pending⟩ := frame
      cases pending with
      | none =>
          cases hopen : isInner e.tree slot && depth < d.limit with
          | true =>
              left
              have hseek := seek_of_open hs hopen
              simp only [turn, hs, hopen, if_true, taken, step_of_seek rules hseek, hseek]
              rfl
          | false =>
              right
              have hclosed : ¬ (isInner e.tree slot && depth < d.limit) = true := by simp [hopen]
              refine ⟨⟨{ d with stack := below }, e, asked⟩, by simp [turn, hs, hopen], work_lt ?_, ?_⟩
              · simp [hs, stackWork, Frame.work]
              · exact taken_congr rules (seek_of_closed hs hclosed)
      | some children =>
          right
          cases children with
          | nil =>
              refine ⟨⟨{ d with stack := below }, e, asked⟩, by simp [turn, hs], work_lt ?_, ?_⟩
              · simp [hs, stackWork, Frame.work]
              · exact taken_congr rules (seek_of_through hs)
          | cons child rest =>
              let deeper : Deepening := { d with stack := ⟨child, depth + 1, none⟩ :: ⟨slot, depth, some rest⟩ :: below }
              refine ⟨⟨deeper, e, asked⟩, by simp [turn, hs, deeper], work_lt ?_, taken_congr rules (seek_of_child hs)⟩
              -- A child that is taken off its list counts for two turns there, and for one on top of the stack.
              simp [hs, stackWork, Frame.work]
              omega

/-- **The loop of a step ends**: it is left within its work, with what the step comes to. -/
theorem loop_eq (rules : Rules π) {turns : Nat} {s : Stepping π υ} (h : s.search.work ≤ turns) :
    loop rules turns s = some (taken rules s) := by
  induction turns generalizing s with
  | zero => exact absurd h (Nat.not_le_of_gt (work_pos s.search))
  | succ turns ih =>
      rw [loop]
      rcases turn_spec rules s with hleft | ⟨s', hon, hless, hsame⟩
      · rw [hleft]
      · rw [hon, hsame]
        exact ih (Nat.le_of_lt_succ (Nat.lt_of_lt_of_le hless h))

/-! ## The node that a search has come to -/

/-- Nothing is left to be expanded at a frame: neither its node nor one of the children that it still has to go through. -/
def Frame.IsOver (isInner : Nat → Bool) (limit : Nat) (f : Frame) : Prop :=
  match f.pending with
  | none => ¬ (isInner f.slot && f.depth < limit) = true
  | some children => ∀ c ∈ children, ¬ (isInner c && f.depth + 1 < limit) = true

/-- The next pass is due: the present one has come to its end, and has found more than the one before it. -/
structure IsDue (isInner : Nat → Bool) (d : Deepening) : Prop where
  ended : ∀ f ∈ d.stack, f.IsOver isInner d.limit
  found : d.isSettled = false

/-- A search has moved on to a node where the game goes on. The node is on top of the stack, not expanded yet, and above
the limit; and nothing was counted, but that the next pass may have begun with the root when it was due. -/
structure ComesTo (isInner : Nat → Bool) (d : Deepening) (slot : Nat) (d' : Deepening) : Prop where
  inner : isInner slot = true
  top : ∃ depth below, d'.stack = ⟨slot, depth, none⟩ :: below ∧ depth < d'.limit
  pass : d' = { d with stack := d'.stack } ∨ IsDue isInner d ∧ slot = d.root ∧ d' = d.nextPass

/-- The first node that a pass can come to is the root. -/
theorem comesTo_nextPass {isInner : Nat → Bool} {d d' : Deepening} {slot : Nat} (hdue : IsDue isInner d)
    (h : seek isInner d.nextPass = (some slot, d')) : ComesTo isInner d slot d' := by
  cases hinner : isInner d.root with
  | true =>
      rw [seek_of_open rfl (by simp [hinner, nextPass])] at h
      cases h
      exact ⟨hinner, ⟨0, [], rfl, Nat.succ_pos d.limit⟩, .inr ⟨hdue, rfl, rfl⟩⟩
  | false =>
      rw [seek_of_closed rfl (by simp [hinner]), seek_of_settled rfl (by simp [isSettled, nextPass])] at h
      cases h

/-- A search that comes to a node from another stack comes to it from this one, where no more is left to be expanded. -/
theorem ComesTo.restack {isInner : Nat → Bool} {d d' : Deepening} {slot : Nat} {stack : List Frame}
    (h : ComesTo isInner { d with stack } slot d')
    (hover : (∀ f ∈ stack, f.IsOver isInner d.limit) → ∀ f ∈ d.stack, f.IsOver isInner d.limit) :
    ComesTo isInner d slot d' where
  inner := h.inner
  top := h.top
  pass := h.pass.imp_right fun ⟨hdue, hroot⟩ => ⟨⟨hover hdue.ended, hdue.found⟩, hroot⟩

theorem comesTo_of_seek {isInner : Nat → Bool} {d d' : Deepening} {slot : Nat}
    (h : seek isInner d = (some slot, d')) : ComesTo isInner d slot d' := by
  fun_induction seek isInner d with
  | case1 d hs hsettled => cases h
  | case2 d hs hsettled ih =>
      have hdue : IsDue isInner d := { ended := by simp [hs], found := Bool.eq_false_iff.mpr hsettled }
      exact comesTo_nextPass hdue h
  | case3 d slot depth below hs hopen =>
      cases h
      obtain ⟨hinner, hdepth⟩ := Bool.and_eq_true_iff.mp hopen
      exact ⟨hinner, ⟨depth, below, hs, of_decide_eq_true hdepth⟩, .inl rfl⟩
  | case4 d slot depth below hs hclosed ih =>
      refine (ih h).restack fun hover => ?_
      rw [hs]
      exact List.forall_mem_cons.mpr ⟨hclosed, hover⟩
  | case5 d slot depth below hs ih =>
      refine (ih h).restack fun hover => ?_
      rw [hs]
      exact List.forall_mem_cons.mpr ⟨fun c hc => absurd hc List.not_mem_nil, hover⟩
  | case6 d slot depth child rest below hs ih =>
      refine (ih h).restack fun hover => ?_
      obtain ⟨hchild, hothers⟩ := List.forall_mem_cons.mp hover
      obtain ⟨hrest, hbelow⟩ := List.forall_mem_cons.mp hothers
      rw [hs]
      exact List.forall_mem_cons.mpr ⟨List.forall_mem_cons.mpr ⟨hchild, hrest⟩, hbelow⟩

/-- A search that has come to a node asks for it at once. -/
theorem ComesTo.step {inner : Nat → Bool} {d d' : Deepening} {slot : Nat} (h : ComesTo inner d slot d') (rules : Rules π)
    {e : Engine π υ} (hinner : isInner e.tree slot = true) : step rules (d', e) = ask rules slot (d', e) := by
  obtain ⟨depth, below, hs, hdepth⟩ := h.top
  exact step_of_seek rules (seek_of_open hs (by simp [hinner, hdepth]))

/-- **A step ends, and one that fails is tried again.** Whatever the game, the engine and the search, the loop of a step is
left after as many turns as its `work` counts, and asks the engine for one node at most. A step that fails leaves the search
at the node that it has asked for: the next step asks for it at once, with any rules and any engine where the game goes on
there, as it does in the engine that was left. The root, the limit and the counts are then those that the search had before
the step, unless the step itself has begun the next pass when that was due; in that case the node is the root. -/
theorem steps_end_and_are_retried (rules : Rules π) (d : Deepening) (e : Engine π υ) :
    ∃ asked, loop rules d.work { search := d, engine := e } = some (step rules (d, e), asked) ∧ asked.length ≤ 1 ∧
      ∀ err d' e', step rules (d, e) = .error err (d', e') →
        ∃ slot, asked = [slot] ∧
          (d' = { d with stack := d'.stack } ∨ IsDue (isInner e.tree) d ∧ slot = d.root ∧ d' = d.nextPass) ∧
          isInner e'.tree slot = true ∧
          ∀ rules' (later : Engine π υ), isInner later.tree slot = true →
            step rules' (d', later) = ask rules' slot (d', later) := by
  have hloop := loop_eq rules (s := ⟨d, e, []⟩) (Nat.le_refl d.work)
  rw [taken, List.append_nil] at hloop
  refine ⟨_, hloop, Option.length_toList_le, ?_⟩
  intro err d' e' hfails
  have hstepped := step_stepped rules (d, e)
  rw [hfails] at hstepped
  cases hstepped with
  | @failed slot _ _ _ hseek hexpand =>
      have hcomes := comesTo_of_seek hseek
      have hstays := isInner_of_failed hexpand hcomes.inner
      refine ⟨slot, ?_, hcomes.pass, hstays, fun rules' later hinner => hcomes.step rules' hinner⟩
      rw [hseek]
      rfl

/-- A game of one move. -/
def onePly : Table where
  initial := some "start"
  places := [⟨"start", "start", some .max, false, 0.0, none, [[("to", .text "end")]]⟩, ⟨"end", "end", none, true, 0.0, none, []⟩]

/-- A step that fails may have begun a pass. In a game of one move, the first step finds the budget used up: the root shows
no moves, and that is counted. The second step has a budget, but rules that fail. Before it asks for the root again it
begins the next pass, so the count is back at zero. -/
theorem failed_step_has_begun_a_pass :
    let rules := onePly.rules none
    let broken := onePly.rules (some "out of order")
    ∃ fresh : Engine Place Float, Engine.ofRules rules = .ok fresh ∧
      let start := fresh.tree.root
      let spent : Engine Place Float := { fresh with expansions := .limited 0 }
      let d : Deepening := { root := start, limit := usualDepth, found := 1, stack := [⟨start, 0, some []⟩] }
      step rules (ofRoot start usualDepth, spent) = .ok (some ⟨"start", []⟩) (d, spent) ∧
        step broken (d, fresh) = .error (.raised .script "out of order") (d.nextPass, fresh) ∧ d.nextPass.found ≠ d.found := by
  intro rules broken
  obtain ⟨fresh, hfresh⟩ : ∃ fresh : Engine Place Float, Engine.ofRules rules = .ok fresh := ⟨_, rfl⟩
  obtain ⟨p, hp, rfl⟩ := Engine.ofRules_spec hfresh
  obtain rfl : onePly.places[0] = p := Except.ok.inj hp
  obtain ⟨hstep, hroot, _⟩ := Tree.ofRoot_spec (υ := Float) onePly.places[0]
  generalize (Tree.ofRoot onePly.places[0] : Tree Place Float) = t at *
  have hmark : t.isExpanded t.root = false := hstep.expanded hroot
  have hposition : t.position? t.root = some onePly.places[0] := by rw [Tree.position?, hroot, Option.map_some]
  have hinner : isInner t t.root = true := isInner_iff.mpr ⟨_, hroot, rfl⟩
  let spent : Engine Place Float := { tree := t, expansions := .limited 0 }
  let d : Deepening := { root := t.root, limit := usualDepth, found := 1, stack := [⟨t.root, 0, some []⟩] }
  refine ⟨_, hfresh, ?_, ?_, Nat.zero_ne_one⟩
  · have hseek : (ofRoot t.root usualDepth).seek (isInner spent.tree) = (some t.root, ofRoot t.root usualDepth) :=
      seek_of_open rfl (by simp [hinner, spent, ofRoot, usualDepth])
    have hshows := Engine.expandNode_of_exhausted rules (e := spent) hstep hposition hmark rfl
    show step rules (ofRoot t.root usualDepth, spent) = .ok (some ⟨"start", []⟩) (d, spent)
    rw [step_of_seek rules hseek, ask, hshows]
    rfl
  · let e : Engine Place Float := { tree := t }
    have hseek : d.seek (isInner e.tree) = (some t.root, d.nextPass) := by
      rw [seek_of_through rfl, seek_of_finished rfl rfl]
      exact seek_of_open rfl (by simp [hinner, e, d, nextPass])
    have hfails : Engine.expandNode broken t.root e = .error (.raised .script "out of order") e := by
      simp only [Engine.expandNode, e, hroot, hmark]
      rfl
    show step broken (d, e) = .error (.raised .script "out of order") (d.nextPass, e)
    rw [step_of_seek broken hseek, ask, hfails]

end Deepening

end SearchLab.Game
