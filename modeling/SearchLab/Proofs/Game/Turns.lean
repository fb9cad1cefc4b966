import Mathlib.Logic.Function.Basic
import SearchLab.Proofs.Game.Play

/-!
# An evaluation turn by turn

Between two verdicts an evaluation takes many turns, and none of them hangs on more than how positions are approached
and what is noted of them. So an evaluation can be followed without regard to the tree: its notes say what the positions
are worth that were settled so far.

The value of a position is what comes out when its moves are gone through in their order, one by one. A clear position
is one behind which no line leads into a cycle. It has the same value on any line, while what is found at other
positions hangs on the line by which they were reached.

* `Turn`, `Goes` — one turn of an evaluation, and what it does to the notes;
* `meet_at_end` — there is only one way to go;
* `Underway` — an evaluation on its way from a root: all that is noted of clear positions is their value;
* `same_at_root` — two evaluations from the same root find the same when what they know to begin with differs at clear
  positions only.
-/

namespace SearchLab.Game.Evaluation

open Relation (ReflTransGen TransGen)

variable {υ : Type} [Score υ] {look : Nat → Except Error (Approach υ)} {notes : Nat → Option υ}

/-! ## Turns -/

/-- A turn of an evaluation, and the verdict that it brings, if any: the root is approached, the position on top has no
move left, or it has come to a move. -/
inductive Turn (look : Nat → Except Error (Approach υ)) (notes : Nat → Option υ) :
    Evaluation υ → Option (Verdict υ) → Evaluation υ → Prop
  | leafRoot {root : Nat} {stack : List (Frame υ)} {u : υ} (happroach : look root = .ok (.leaf u)) :
      Turn look notes ⟨some root, stack⟩ (some ⟨root, u, []⟩) ⟨none, stack⟩
  | enterRoot {root : Nat} {stack : List (Frame υ)} {player : Player} {moves : List Move}
      (happroach : look root = .ok (.inner player moves)) :
      Turn look notes ⟨some root, stack⟩ none ⟨none, { slot := root, player, moves } :: stack⟩
  | close {f : Frame υ} {below : List (Frame υ)} (hmoves : f.moves = []) :
      Turn look notes ⟨none, f :: below⟩ (some f.verdict) ⟨none, below⟩
  | known {f : Frame υ} {below : List (Frame υ)} {move : Move} {rest : List Move} {u : υ}
      (hmoves : f.moves = move :: rest) (hnoted : notes move.slot = some u) :
      Turn look notes ⟨none, f :: below⟩ none ⟨none, f.absorb u move rest :: below⟩
  | back {f : Frame υ} {below : List (Frame υ)} {move : Move} {rest : List Move} (hmoves : f.moves = move :: rest)
      (hnoted : notes move.slot = none) (hline : isOnLine ⟨none, f :: below⟩ move.slot = true) :
      Turn look notes ⟨none, f :: below⟩ none ⟨none, f.absorb Score.zero move rest :: below⟩
  | leaf {f : Frame υ} {below : List (Frame υ)} {move : Move} {rest : List Move} {u : υ} (hmoves : f.moves = move :: rest)
      (hnoted : notes move.slot = none) (hline : isOnLine ⟨none, f :: below⟩ move.slot = false)
      (happroach : look move.slot = .ok (.leaf u)) :
      Turn look notes ⟨none, f :: below⟩ (some ⟨move.slot, u, []⟩) ⟨none, f :: below⟩
  | enter {f : Frame υ} {below : List (Frame υ)} {move : Move} {rest : List Move} {player : Player} {moves : List Move}
      (hmoves : f.moves = move :: rest) (hnoted : notes move.slot = none)
      (hline : isOnLine ⟨none, f :: below⟩ move.slot = false) (happroach : look move.slot = .ok (.inner player moves)) :
      Turn look notes ⟨none, f :: below⟩ none ⟨none, { slot := move.slot, player, moves } :: f :: below⟩

omit [Score υ] in
/-- The notes with one more verdict, if there is one. -/
def noted (notes : Nat → Option υ) : Option (Verdict υ) → Nat → Option υ
  | none => notes
  | some v => Function.update notes v.slot (some v.utility)

/-- An evaluation takes a turn, and the verdict is noted. -/
inductive Goes (look : Nat → Except Error (Approach υ)) :
    Evaluation υ × (Nat → Option υ) → Evaluation υ × (Nat → Option υ) → Prop
  | turn {notes : Nat → Option υ} {s s' : Evaluation υ} {found : Option (Verdict υ)} (h : Turn look notes s found s') :
      Goes look (s, notes) (s', noted notes found)

theorem Turn.unique {s s₁ s₂ : Evaluation υ} {found₁ found₂ : Option (Verdict υ)} (h₁ : Turn look notes s found₁ s₁)
    (h₂ : Turn look notes s found₂ s₂) : found₁ = found₂ ∧ s₁ = s₂ := by
  cases h₁ with
  | leafRoot h | enterRoot h => cases h₂ <;> simp_all
  | close hm => cases h₂ <;> simp_all
  | known hm hn | back hm hn hl => cases h₂ <;> simp_all
  | leaf hm hn hl ha | enter hm hn hl ha => cases h₂ <;> simp_all

theorem Goes.unique : Relator.RightUnique (Goes look) := by
  rintro _ _ _ ⟨h₁⟩ ⟨h₂⟩
  obtain ⟨rfl, rfl⟩ := h₁.unique h₂
  rfl

/-- **There is only one way to go**: an evaluation that comes to its end ends with the same notes in every run. -/
theorem meet_at_end {start : Evaluation υ × (Nat → Option υ)} {notes₁ notes₂ : Nat → Option υ}
    (h₁ : ReflTransGen (Goes look) start (⟨none, []⟩, notes₁)) (h₂ : ReflTransGen (Goes look) start (⟨none, []⟩, notes₂)) :
    notes₁ = notes₂ := by
  have hstays : ∀ {notes : Nat → Option υ} {c : Evaluation υ × (Nat → Option υ)},
      ReflTransGen (Goes look) (⟨none, []⟩, notes) c → c = (⟨none, []⟩, notes) := by
    intro notes c h
    rcases h.cases_head with rfl | ⟨_, ⟨hturn⟩, _⟩
    · rfl
    · cases hturn
  rcases ReflTransGen.total_of_right_unique Goes.unique h₁ h₂ with h | h
  · exact (congrArg Prod.snd (hstays h)).symm
  · exact congrArg Prod.snd (hstays h)

/-- A turn remains possible where more positions can be approached. -/
theorem Goes.mono {look' : Nat → Except Error (Approach υ)} (hmore : ∀ slot a, look slot = .ok a → look' slot = .ok a)
    {c c' : Evaluation υ × (Nat → Option υ)} (h : Goes look c c') : Goes look' c c' := by
  obtain ⟨h⟩ := h
  refine .turn ?_
  cases h with
  | leafRoot ha => exact .leafRoot (hmore _ _ ha)
  | enterRoot ha => exact .enterRoot (hmore _ _ ha)
  | close hm => exact .close hm
  | known hm hn => exact .known hm hn
  | back hm hn hl => exact .back hm hn hl
  | leaf hm hn hl ha => exact .leaf hm hn hl (hmore _ _ ha)
  | enter hm hn hl ha => exact .enter hm hn hl (hmore _ _ ha)

omit [Score υ] in
theorem off_line {stack : List (Frame υ)} {slot : Nat} (hline : isOnLine ⟨none, stack⟩ slot = false) :
    ∀ f ∈ stack, f.slot ≠ slot := by
  simpa [isOnLine] using hline

omit [Score υ] in
theorem on_line {stack : List (Frame υ)} {slot : Nat} (hline : isOnLine ⟨none, stack⟩ slot = true) :
    ∃ f ∈ stack, f.slot = slot := by
  simpa [isOnLine] using hline

/-! ## Clear positions -/

omit [Score υ] in
/-- The moves of a position that has to be gone through lead to another one. -/
def Onward (look : Nat → Except Error (Approach υ)) (a b : Nat) : Prop :=
  ∃ player moves, look a = .ok (.inner player moves) ∧ ∃ m ∈ moves, m.slot = b

omit [Score υ] in
/-- No line from a position leads into a cycle. -/
def Clear (look : Nat → Except Error (Approach υ)) (slot : Nat) : Prop :=
  ∀ y, ReflTransGen (Onward look) slot y → ¬ TransGen (Onward look) y y

section

variable {slot : Nat}

omit [Score υ] in
theorem Clear.reaches {other : Nat} (h : Clear look slot) (hreaches : ReflTransGen (Onward look) slot other) :
    Clear look other :=
  fun y hy => h y (hreaches.trans hy)

omit [Score υ] in
theorem clear_of_leaf {u : υ} (happroach : look slot = .ok (.leaf u)) : Clear look slot := by
  have hstuck : ∀ y, ¬ Onward look slot y := by
    rintro y ⟨player, moves, hinner, _⟩
    cases happroach.symm.trans hinner
  intro y hy hcycle
  rcases hy.cases_head with rfl | ⟨_, honward, _⟩
  · obtain ⟨z, honward, _⟩ := TransGen.head'_iff.mp hcycle
    exact hstuck z honward
  · exact hstuck _ honward

omit [Score υ] in
theorem Onward.mono {look' : Nat → Except Error (Approach υ)} (hmore : ∀ slot a, look slot = .ok a → look' slot = .ok a)
    {a b : Nat} (h : Onward look a b) : Onward look' a b := by
  obtain ⟨player, moves, happroach, hmove⟩ := h
  exact ⟨player, moves, hmore _ _ happroach, hmove⟩

omit [Score υ] in
theorem Clear.anti {look' : Nat → Except Error (Approach υ)} (hmore : ∀ slot a, look slot = .ok a → look' slot = .ok a)
    (h : Clear look' slot) : Clear look slot := by
  have honward : ∀ a b, Onward look a b → Onward look' a b := fun _ _ => Onward.mono hmore
  exact fun y hy hcycle => h y (ReflTransGen.mono honward slot y hy) (TransGen.mono honward y y hcycle)

/-! ## Values -/

/-- A frame takes note of one outcome after another. -/
def Frame.gather (f : Frame υ) (outcomes : List (Move × υ)) : Frame υ :=
  outcomes.foldl (fun f o => f.absorb o.2 o.1 f.moves.tail) f

theorem Frame.gather_append (f : Frame υ) (outcomes : List (Move × υ)) (o : Move × υ) :
    f.gather (outcomes ++ [o]) = (f.gather outcomes).absorb o.2 o.1 (f.gather outcomes).moves.tail := by
  rw [gather, gather, List.foldl_append, List.foldl_cons, List.foldl_nil]

/-- What a position comes to when its moves are gone through in their order. -/
inductive Value (look : Nat → Except Error (Approach υ)) : Nat → υ → Prop
  | leaf {slot : Nat} {u : υ} (happroach : look slot = .ok (.leaf u)) : Value look slot u
  | inner {slot : Nat} {player : Player} (outcomes : List (Move × υ))
      (happroach : look slot = .ok (.inner player (outcomes.map Prod.fst)))
      (hvalues : ∀ o ∈ outcomes, Value look o.1.slot o.2) :
      Value look slot
        (Frame.gather { slot, player, moves := outcomes.map Prod.fst } outcomes).verdict.utility

omit [Score υ] in
/-- Outcomes of the same moves are the same when each move has one outcome only. -/
theorem outcomes_unique {P : Nat → υ → Prop} {xs ys : List (Move × υ)} (hmoves : xs.map Prod.fst = ys.map Prod.fst)
    (hunique : ∀ x ∈ xs, ∀ v, P x.1.slot v → x.2 = v) (hys : ∀ y ∈ ys, P y.1.slot y.2) : xs = ys := by
  induction xs generalizing ys with
  | nil => exact (List.map_eq_nil_iff.mp hmoves.symm).symm
  | cons x xs ih =>
      cases ys with
      | nil => cases hmoves
      | cons y ys =>
          obtain ⟨hmove, hrest⟩ := List.cons.inj hmoves
          have hvalue : x.2 = y.2 := hunique x List.mem_cons_self y.2 (hmove ▸ hys y List.mem_cons_self)
          have htail := ih hrest (fun x hx => hunique x (List.mem_cons_of_mem _ hx))
            fun y hy => hys y (List.mem_cons_of_mem _ hy)
          rw [htail, Prod.ext hmove hvalue]

theorem Value.unique {u v : υ} (h : Value look slot u) (h' : Value look slot v) : u = v := by
  induction h generalizing v with
  | leaf happroach =>
      cases h' with
      | leaf happroach' =>
          cases happroach.symm.trans happroach'
          rfl
      | inner _ happroach' _ => cases happroach.symm.trans happroach'
  | @inner slot player outcomes happroach _ ih =>
      cases h' with
      | leaf happroach' => cases happroach.symm.trans happroach'
      | @inner _ player' others happroach' hvalues' =>
          have hsame := Except.ok.inj (happroach.symm.trans happroach')
          injection hsame with hplayer hmoves
          obtain rfl := outcomes_unique hmoves (fun o ho v hv => ih o ho hv) hvalues'
          rw [hplayer]

open Classical in
/-- The values of all positions that have one. -/
theorem exists_values (look : Nat → Except Error (Approach υ)) :
    ∃ values : Nat → Option υ, ∀ slot u, Value look slot u → values slot = some u := by
  refine ⟨fun slot => if hvalue : ∃ u, Value look slot u then some hvalue.choose else none, fun slot u hu => ?_⟩
  have hvalue : ∃ u, Value look slot u := ⟨u, hu⟩
  exact (dif_pos hvalue).trans (congrArg some (hvalue.choose_spec.unique hu))

theorem Value.mono {look' : Nat → Except Error (Approach υ)} (hmore : ∀ slot a, look slot = .ok a → look' slot = .ok a)
    {u : υ} (h : Value look slot u) : Value look' slot u := by
  induction h with
  | leaf happroach => exact .leaf (hmore _ _ happroach)
  | inner outcomes happroach _ ih => exact .inner outcomes (hmore _ _ happroach) ih

end

/-! ## Evaluations underway -/

/-- What is noted of clear positions is their value. -/
def Right (look : Nat → Except Error (Approach υ)) (notes : Nat → Option υ) : Prop :=
  ∀ slot u, notes slot = some u → Clear look slot → Value look slot u

theorem Right.none : Right look fun _ => none := fun _ _ hu => by cases hu

theorem Right.note {slot : Nat} {u : υ} (h : Right look notes) (hu : Clear look slot → Value look slot u) :
    Right look (Function.update notes slot (some u)) := by
  intro other v hv hclear
  by_cases hother : other = slot
  · subst hother
    rw [Function.update_self] at hv
    cases hv
    exact hu hclear
  · rw [Function.update_of_ne hother] at hv
    exact h other v hv hclear

theorem Right.mono {look' : Nat → Except Error (Approach υ)} (hmore : ∀ slot a, look slot = .ok a → look' slot = .ok a)
    (h : Right look notes) : Right look' notes :=
  fun slot u hu hclear => (h slot u hu (hclear.anti hmore)).mono hmore

/-- A frame has gone through the first moves of its position, which have had these outcomes. -/
def Frame.Passed (look : Nat → Except Error (Approach υ)) (f : Frame υ) (outcomes : List (Move × υ)) : Prop :=
  look f.slot = .ok (.inner f.player (outcomes.map Prod.fst ++ f.moves)) ∧
    f = gather { slot := f.slot, player := f.player, moves := outcomes.map Prod.fst ++ f.moves } outcomes

/-- One move more. -/
theorem Frame.Passed.absorb {f : Frame υ} {outcomes : List (Move × υ)} (h : f.Passed look outcomes) {move : Move}
    {rest : List Move} (hmoves : f.moves = move :: rest) (u : υ) :
    (f.absorb u move rest).Passed look (outcomes ++ [(move, u)]) := by
  obtain ⟨happroach, hgather⟩ := h
  have hsplit : (outcomes ++ [(move, u)]).map Prod.fst ++ rest = outcomes.map Prod.fst ++ f.moves := by
    rw [hmoves, List.map_append, List.append_assoc]
    rfl
  constructor
  · rw [slot_absorb, player_absorb, moves_absorb, hsplit]
    exact happroach
  · rw [slot_absorb, player_absorb, moves_absorb, hsplit, gather_append, ← hgather, hmoves, List.tail_cons]

/-- A frame has gone through the first moves of its position; the outcomes at a clear position are values. -/
def Frame.Gathers (look : Nat → Except Error (Approach υ)) (f : Frame υ) : Prop :=
  ∃ outcomes : List (Move × υ), look f.slot = .ok (.inner f.player (outcomes.map Prod.fst ++ f.moves)) ∧
    f = gather { slot := f.slot, player := f.player, moves := outcomes.map Prod.fst ++ f.moves } outcomes ∧
    (Clear look f.slot → ∀ o ∈ outcomes, Value look o.1.slot o.2)

namespace Frame.Gathers

variable {f : Frame υ}

theorem enter {slot : Nat} {player : Player} {moves : List Move} (happroach : look slot = .ok (.inner player moves)) :
    Gathers look ({ slot, player, moves } : Frame υ) :=
  ⟨[], happroach, rfl, by simp⟩

/-- A move that is still to be gone through leads on. -/
theorem onward (h : f.Gathers look) {m : Move} (hm : m ∈ f.moves) : Onward look f.slot m.slot := by
  obtain ⟨outcomes, happroach, _⟩ := h
  exact ⟨_, _, happroach, m, List.mem_append_right _ hm, rfl⟩

theorem absorb (h : f.Gathers look) {move : Move} {rest : List Move} (hmoves : f.moves = move :: rest) {u : υ}
    (hu : Clear look f.slot → Value look move.slot u) : (f.absorb u move rest).Gathers look := by
  obtain ⟨outcomes, happroach, hgather, hvalues⟩ := h
  have hpassed : (f.absorb u move rest).Passed look _ := Passed.absorb ⟨happroach, hgather⟩ hmoves u
  refine ⟨_, hpassed.1, hpassed.2, ?_⟩
  rw [slot_absorb]
  intro hclear o ho
  rcases List.mem_append.mp ho with ho | ho
  · exact hvalues hclear o ho
  · rw [List.mem_singleton.mp ho]
    exact hu hclear

/-- The verdict on a clear position is its value. -/
theorem verdict (h : f.Gathers look) (hmoves : f.moves = []) (hclear : Clear look f.slot) :
    Value look f.slot f.verdict.utility := by
  obtain ⟨outcomes, happroach, hgather, hvalues⟩ := h
  rw [hmoves, List.append_nil] at happroach hgather
  rw [congrArg Frame.verdict hgather]
  exact .inner outcomes happroach (hvalues hclear)

end Frame.Gathers

/-- The frames of a line from a root, the deepest one first: each is behind the move that the frame below it has come to,
at a position that was not on the line. -/
inductive Stacked (look : Nat → Except Error (Approach υ)) (root : Nat) : List (Frame υ) → Prop
  | start {f : Frame υ} (hf : f.Gathers look) (hroot : f.slot = root) : Stacked look root [f]
  | reply {f g : Frame υ} {below : List (Frame υ)} {move : Move} {rest : List Move}
      (hbelow : Stacked look root (g :: below)) (hf : f.Gathers look) (hmoves : g.moves = move :: rest)
      (hslot : move.slot = f.slot) (hnew : ∀ g' ∈ g :: below, g'.slot ≠ f.slot) : Stacked look root (f :: g :: below)

namespace Stacked

variable {root : Nat} {f : Frame υ} {below stack : List (Frame υ)}

theorem gathers (h : Stacked look root stack) {g : Frame υ} (hg : g ∈ stack) : g.Gathers look := by
  induction h with
  | start hf _ => rwa [List.mem_singleton.mp hg]
  | reply _ hf _ _ _ ih =>
      rcases List.mem_cons.mp hg with rfl | hg
      · exact hf
      · exact ih hg

/-- The frame on top can be changed for another one of the same position. -/
theorem replace (h : Stacked look root (f :: below)) {f' : Frame υ} (hf' : f'.Gathers look) (hslot : f'.slot = f.slot) :
    Stacked look root (f' :: below) := by
  cases h with
  | start _ hroot => exact .start hf' (hslot.trans hroot)
  | reply hbelow _ hmoves hbehind hnew => exact .reply hbelow hf' hmoves (hbehind.trans hslot.symm) (hslot ▸ hnew)

theorem root_mem (h : Stacked look root stack) : ∃ g ∈ stack, g.slot = root := by
  induction h with
  | @start f _ hroot => exact ⟨f, List.mem_singleton_self f, hroot⟩
  | @reply f _ _ _ _ _ _ _ _ _ ih =>
      obtain ⟨g, hg, hroot⟩ := ih
      exact ⟨g, List.mem_cons_of_mem f hg, hroot⟩

/-- The root leads to each position of the line. -/
theorem reached (h : Stacked look root stack) {g : Frame υ} (hg : g ∈ stack) :
    ReflTransGen (Onward look) root g.slot := by
  induction h generalizing g with
  | start _ hroot =>
      rw [List.mem_singleton.mp hg, hroot]
  | @reply f g' below move rest hbelow hf hmoves hslot _ ih =>
      rcases List.mem_cons.mp hg with rfl | hg
      · have hfirst := (hbelow.gathers List.mem_cons_self).onward (hmoves ▸ List.mem_cons_self : move ∈ g'.moves)
        exact (ih List.mem_cons_self).tail (hslot ▸ hfirst)
      · exact ih hg

/-- Each position of the line leads to the one on top. -/
theorem leads (h : Stacked look root (f :: below)) {g : Frame υ} (hg : g ∈ f :: below) :
    ReflTransGen (Onward look) g.slot f.slot := by
  generalize hstack : f :: below = stack at h hg
  induction h generalizing f below with
  | start _ _ =>
      cases hstack
      rw [List.mem_singleton.mp hg]
  | @reply f' g' below' move rest hbelow hf hmoves hslot _ ih =>
      cases hstack
      rcases List.mem_cons.mp hg with rfl | hg
      · exact .refl
      · have hfirst := (hbelow.gathers List.mem_cons_self).onward (hmoves ▸ List.mem_cons_self : move ∈ g'.moves)
        exact (ih rfl hg).tail (hslot ▸ hfirst)

theorem leads_of_onLine (h : Stacked look root (f :: below)) {slot : Nat}
    (hline : isOnLine ⟨none, f :: below⟩ slot = true) : ReflTransGen (Onward look) slot f.slot := by
  obtain ⟨g, hg, hslot⟩ := on_line hline
  exact hslot ▸ h.leads hg

/-- A move that leads back into the line is part of a cycle. -/
theorem cycle (h : Stacked look root (f :: below)) {move : Move} (hmove : move ∈ f.moves)
    (hline : isOnLine ⟨none, f :: below⟩ move.slot = true) : TransGen (Onward look) move.slot move.slot :=
  TransGen.tail' (h.leads_of_onLine hline) ((h.gathers List.mem_cons_self).onward hmove)

/-- No move from a clear position leads back into the line. -/
theorem off_of_clear (h : Stacked look root (f :: below)) (hclear : Clear look f.slot) {slot : Nat}
    (honward : Onward look f.slot slot) : ¬ isOnLine ⟨none, f :: below⟩ slot = true := fun hline =>
  hclear f.slot .refl (TransGen.head' honward (h.leads_of_onLine hline))

end Stacked

/-- An evaluation on its way from a root: it has not begun, it is on a line, or it is done. -/
inductive Underway (look : Nat → Except Error (Approach υ)) (root : Nat) :
    Evaluation υ × (Nat → Option υ) → Prop
  | fresh {notes : Nat → Option υ} (hright : Right look notes) : Underway look root (ofRoot root, notes)
  | onLine {notes : Nat → Option υ} {stack : List (Frame υ)} (hright : Right look notes)
      (hline : Stacked look root stack) : Underway look root (⟨none, stack⟩, notes)
  | finished {notes : Nat → Option υ} (hright : Right look notes) (hroot : (notes root).isSome = true) :
      Underway look root (⟨none, []⟩, notes)

namespace Underway

variable {root : Nat} {c c' : Evaluation υ × (Nat → Option υ)}

theorem right (h : Underway look root c) : Right look c.2 := by
  cases h with
  | fresh hright | onLine hright _ | finished hright _ => exact hright

theorem line {f : Frame υ} {below : List (Frame υ)} (h : Underway look root (⟨none, f :: below⟩, notes)) :
    Stacked look root (f :: below) := by
  cases h with
  | onLine _ hline => exact hline

/-- What an evaluation has found in the end: the root is settled. -/
theorem root_noted (h : Underway look root (⟨none, []⟩, notes)) : ∃ u, notes root = some u := by
  cases h with
  | onLine _ hline => cases hline
  | finished _ hroot => exact Option.isSome_iff_exists.mp hroot

/-- **A turn leaves an evaluation on its way.** -/
theorem turn {s s' : Evaluation υ} {found : Option (Verdict υ)} (h : Underway look root (s, notes))
    (hturn : Turn look notes s found s') : Underway look root (s', noted notes found) := by
  have hright := h.right
  cases hturn with
  | leafRoot happroach =>
      cases h with
      | fresh _ => exact .finished (hright.note fun _ => .leaf happroach) (by simp [noted])
  | enterRoot happroach =>
      cases h with
      | fresh _ => exact .onLine hright (.start (.enter happroach) rfl)
  | close hmoves =>
      have hnoted := hright.note (h.line.gathers List.mem_cons_self |>.verdict hmoves)
      cases h.line with
      | start _ hroot =>
          refine .finished hnoted ?_
          simp [noted, Frame.verdict, ← hroot]
      | reply hbelow _ _ _ _ => exact .onLine hnoted hbelow
  | @known f below move rest u hmoves hu =>
      have hf := h.line.gathers List.mem_cons_self
      have hmove : Onward look f.slot move.slot := hf.onward (hmoves ▸ List.mem_cons_self)
      refine .onLine hright (h.line.replace (hf.absorb hmoves fun hclear => ?_) (Frame.slot_absorb ..))
      exact hright _ _ hu (hclear.reaches (.single hmove))
  | @back f below move rest hmoves _ hback =>
      have hf := h.line.gathers List.mem_cons_self
      have hmove : move ∈ f.moves := hmoves ▸ List.mem_cons_self
      refine .onLine hright (h.line.replace (hf.absorb hmoves fun hclear => ?_) (Frame.slot_absorb ..))
      exact absurd (h.line.cycle hmove hback) (hclear _ (.single (hf.onward hmove)))
  | leaf hmoves _ _ happroach => exact .onLine (hright.note fun _ => .leaf happroach) h.line
  | enter hmoves _ hoff happroach =>
      exact .onLine hright (.reply h.line (.enter happroach) hmoves rfl (off_line hoff))

theorem goes (h : Underway look root c) (hgoes : ReflTransGen (Goes look) c c') : Underway look root c' := by
  induction hgoes with
  | refl => exact h
  | tail _ hturn ih =>
      obtain ⟨hturn⟩ := hturn
      exact ih.turn hturn

/-- Verdicts are given on positions that can be approached. -/
theorem approached {s s' : Evaluation υ} {v : Verdict υ} (h : Underway look root (s, notes))
    (hturn : Turn look notes s (some v) s') : ∃ a, look v.slot = .ok a := by
  cases hturn with
  | leafRoot happroach | leaf _ _ _ happroach => exact ⟨_, happroach⟩
  | close hmoves =>
      obtain ⟨outcomes, happroach, _⟩ := h.line.gathers List.mem_cons_self
      exact ⟨_, happroach⟩

end Underway

/-! ## Evaluations that know different values -/

section

variable {root : Nat} {clear : Nat → Bool} {values : Nat → Option υ}

omit [Score υ] in
/-- The frames of a line apart from those at some positions. -/
def shown (clear : Nat → Bool) (stack : List (Frame υ)) : List (Frame υ) := stack.filter fun f => !clear f.slot

omit [Score υ] in
/-- The notes as they would be if the values of some positions had been noted all along. -/
def overlay (clear : Nat → Bool) (values notes : Nat → Option υ) (slot : Nat) : Option υ :=
  if clear slot then values slot else notes slot

omit [Score υ] in
theorem overlay_note (slot : Nat) (hclear : clear slot = true) (u : Option υ) :
    overlay clear values (Function.update notes slot u) = overlay clear values notes := by
  funext other
  by_cases hother : other = slot
  · simp [overlay, hother, hclear]
  · simp [overlay, Function.update_of_ne hother]

omit [Score υ] in
theorem overlay_note_of_shown (slot : Nat) (hshown : clear slot = false) (u : Option υ) :
    overlay clear values (Function.update notes slot u) = Function.update (overlay clear values notes) slot u := by
  funext other
  by_cases hother : other = slot
  · simp [overlay, hother, hshown]
  · simp [overlay, Function.update_of_ne hother]

omit [Score υ] in
theorem shown_cons {f : Frame υ} (stack : List (Frame υ)) (hclear : clear f.slot = true) :
    shown clear (f :: stack) = shown clear stack := by
  simp [shown, hclear]

omit [Score υ] in
theorem shown_cons_of_shown {f : Frame υ} (stack : List (Frame υ)) (hshown : clear f.slot = false) :
    shown clear (f :: stack) = f :: shown clear stack := by
  simp [shown, hshown]

omit [Score υ] in
theorem overlay_of_shown {slot : Nat} (hshown : clear slot = false) : overlay clear values notes slot = notes slot := by
  simp [overlay, hshown]

omit [Score υ] in
/-- Whether a position is on the line does not hang on the frames at others. -/
theorem isOnLine_shown {stack : List (Frame υ)} {slot : Nat} (hshown : clear slot = false) :
    isOnLine ⟨none, shown clear stack⟩ slot = isOnLine ⟨none, stack⟩ slot := by
  rw [Bool.eq_iff_iff, isOnLine, isOnLine, List.any_eq_true, List.any_eq_true]
  constructor
  · rintro ⟨g, hg, hslot⟩
    exact ⟨g, List.mem_of_mem_filter hg, hslot⟩
  · rintro ⟨g, hg, hslot⟩
    have hsame : g.slot = slot := by simpa using hslot
    exact ⟨g, List.mem_filter.mpr ⟨hg, by simp [hsame, hshown]⟩, hslot⟩

/-- The root leads to the position behind a move that is still to be gone through. -/
theorem Underway.reaches_move {f : Frame υ} {below : List (Frame υ)} {move : Move} {rest : List Move}
    (h : Underway look root (⟨none, f :: below⟩, notes)) (hmoves : f.moves = move :: rest) :
    ReflTransGen (Onward look) root f.slot ∧ Onward look f.slot move.slot ∧ ReflTransGen (Onward look) root move.slot := by
  have hreached := h.line.reached List.mem_cons_self
  have honward := (h.line.gathers List.mem_cons_self).onward (hmoves ▸ List.mem_cons_self : move ∈ f.moves)
  exact ⟨hreached, honward, hreached.tail honward⟩

/-- Where a move is not clear, the position that it is made from is not clear either. -/
theorem Underway.frame_shown (hclear : ∀ slot, ReflTransGen (Onward look) root slot → (clear slot = true ↔ Clear look slot))
    {f : Frame υ} {below : List (Frame υ)} {move : Move} {rest : List Move}
    (h : Underway look root (⟨none, f :: below⟩, notes)) (hmoves : f.moves = move :: rest)
    (hmove : clear move.slot = false) : clear f.slot = false := by
  obtain ⟨hreached, honward, hbehind⟩ := h.reaches_move hmoves
  rw [Bool.eq_false_iff] at hmove ⊢
  exact fun hf => hmove ((hclear _ hbehind).mpr (((hclear _ hreached).mp hf).reaches (.single honward)))

/-- **Nothing is seen of the turns at clear positions** by an evaluation that knows their values: each other turn is a
turn of that evaluation as well. -/
theorem shown_goes (hclear : ∀ slot, ReflTransGen (Onward look) root slot → (clear slot = true ↔ Clear look slot))
    (hvalues : ∀ slot u, Value look slot u → values slot = some u) (hroot : clear root = false)
    {s s' : Evaluation υ} {found : Option (Verdict υ)} (h : Underway look root (s, notes))
    (hturn : Turn look notes s found s') :
    ReflTransGen (Goes look) (⟨s.root, shown clear s.stack⟩, overlay clear values notes)
      (⟨s'.root, shown clear s'.stack⟩, overlay clear values (noted notes found)) := by
  cases hturn with
  | leafRoot happroach =>
      cases h with
      | fresh _ => exact absurd ((hclear root .refl).mpr (clear_of_leaf happroach)) (by simp [hroot])
  | @enterRoot _ _ player moves happroach =>
      cases h with
      | fresh _ =>
          rw [shown_cons_of_shown (f := { slot := root, player, moves }) [] hroot]
          exact .single (.turn (.enterRoot happroach))
  | @close f below hmoves =>
      cases hf : clear f.slot with
      | true =>
          rw [shown_cons below hf, noted, overlay_note f.verdict.slot hf]
      | false =>
          rw [shown_cons_of_shown below hf, noted, overlay_note_of_shown f.verdict.slot hf]
          exact .single (.turn (.close hmoves))
  | @known f below move rest u hmoves hu =>
      cases hf : clear f.slot with
      | true =>
          rw [shown_cons below hf, shown_cons below ((Frame.slot_absorb f u move rest).symm ▸ hf)]
          exact .refl
      | false =>
          rw [shown_cons_of_shown below hf, shown_cons_of_shown below ((Frame.slot_absorb f u move rest).symm ▸ hf)]
          refine .single (.turn (.known hmoves ?_))
          cases hmove : clear move.slot with
          | true =>
              have hvalue := h.right _ _ hu ((hclear _ (h.reaches_move hmoves).2.2).mp hmove)
              rw [overlay, if_pos hmove, hvalues _ _ hvalue]
          | false => rw [overlay_of_shown hmove, hu]
  | @back f below move rest hmoves hnone hback =>
      -- The move is part of a cycle, so neither of its ends is clear.
      have hmove : clear move.slot = false := by
        rw [Bool.eq_false_iff]
        intro hmove
        refine (hclear _ (h.reaches_move hmoves).2.2).mp hmove _ .refl (h.line.cycle ?_ hback)
        exact hmoves ▸ List.mem_cons_self
      have hf := h.frame_shown hclear hmoves hmove
      rw [shown_cons_of_shown below hf, shown_cons_of_shown below ((Frame.slot_absorb f _ move rest).symm ▸ hf)]
      refine .single (.turn (.back hmoves ((overlay_of_shown hmove).trans hnone) ?_))
      rw [← shown_cons_of_shown below hf, isOnLine_shown hmove, hback]
  | @leaf f below move rest u hmoves _ _ happroach =>
      have hmove : clear move.slot = true := (hclear _ (h.reaches_move hmoves).2.2).mpr (clear_of_leaf happroach)
      rw [noted, overlay_note move.slot hmove]
  | @enter f below move rest player moves hmoves hnone hoff happroach =>
      cases hmove : clear move.slot with
      | true =>
          rw [shown_cons (f := { slot := move.slot, player, moves }) (f :: below) hmove]
          exact .refl
      | false =>
          have hf := h.frame_shown hclear hmoves hmove
          rw [shown_cons_of_shown (f := { slot := move.slot, player, moves }) (f :: below) hmove,
            shown_cons_of_shown below hf]
          refine .single (.turn (.enter hmoves ((overlay_of_shown hmove).trans hnone) ?_ happroach))
          rw [← shown_cons_of_shown below hf, isOnLine_shown hmove, hoff]

theorem shown_run (hclear : ∀ slot, ReflTransGen (Onward look) root slot → (clear slot = true ↔ Clear look slot))
    (hvalues : ∀ slot u, Value look slot u → values slot = some u) (hroot : clear root = false)
    {c c' : Evaluation υ × (Nat → Option υ)} (h : Underway look root c) (hgoes : ReflTransGen (Goes look) c c') :
    ReflTransGen (Goes look) (⟨c.1.root, shown clear c.1.stack⟩, overlay clear values c.2)
      (⟨c'.1.root, shown clear c'.1.stack⟩, overlay clear values c'.2) := by
  induction hgoes with
  | refl => exact .refl
  | tail hbefore hturn ih =>
      have hmiddle := h.goes hbefore
      obtain ⟨hturn⟩ := hturn
      exact ih.trans (shown_goes hclear hvalues hroot hmiddle hturn)

end

open Classical in
/-- **What an evaluation finds at its root** hangs on what it knows to begin with of the positions that the root leads to
and that are not clear. What it knows of the others may be more or less, so long as it is right. -/
theorem same_at_root {root : Nat} {before before' after after' : Nat → Option υ} (hright : Right look before)
    (hright' : Right look before')
    (hsame : ∀ slot, ReflTransGen (Onward look) root slot → ¬ Clear look slot → before slot = before' slot)
    (h : ReflTransGen (Goes look) (ofRoot root, before) (⟨none, []⟩, after))
    (h' : ReflTransGen (Goes look) (ofRoot root, before') (⟨none, []⟩, after')) : after root = after' root := by
  have hend := Underway.goes (.fresh hright) h
  have hend' := Underway.goes (.fresh hright') h'
  by_cases hroot : Clear look root
  · -- The root has a value, and both have found it.
    obtain ⟨u, hu⟩ := hend.root_noted
    obtain ⟨u', hu'⟩ := hend'.root_noted
    rw [hu, hu', (hend.right _ _ hu hroot).unique (hend'.right _ _ hu' hroot)]
  · obtain ⟨values, hvalues⟩ := exists_values look
    -- What the root does not lead to is hidden as well, for it may be known to one of the two only.
    let clear (slot : Nat) : Bool := decide (ReflTransGen (Onward look) root slot → Clear look slot)
    have hclear : ∀ slot, ReflTransGen (Onward look) root slot → (clear slot = true ↔ Clear look slot) := by
      intro slot hreached
      simp [clear, hreached]
    have hshown : clear root = false := by simp [clear, hroot, ReflTransGen.refl]
    have hstart : overlay clear values before = overlay clear values before' := by
      funext slot
      unfold overlay
      split
      · rfl
      · rename_i hslot
        obtain ⟨hreached, hcycles⟩ : ReflTransGen (Onward look) root slot ∧ ¬ Clear look slot := by
          simpa [clear] using hslot
        exact hsame slot hreached hcycles
    have hrun := shown_run hclear hvalues hshown (.fresh hright) h
    have hrun' := shown_run hclear hvalues hshown (.fresh hright') h'
    rw [← hstart] at hrun'
    have hnotes := congrFun (meet_at_end hrun hrun') root
    simpa [overlay, hshown] using hnotes

end SearchLab.Game.Evaluation
