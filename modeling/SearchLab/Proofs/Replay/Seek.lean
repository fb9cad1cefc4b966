import SearchLab.Proofs.History.Chain
import SearchLab.Proofs.Replay.Look
import SearchLab.Replay.Context

/-!
# Going to a place in the log

What the layers show after a change, or after it was taken back, is known from what they showed before. `shownAfter`
says what they show when commands have been done from the first one on. A replay follows that: wherever it has been in
the log, the layers there are like those that `shownAfter` foresees. Two likenesses are of use. Looks that match are
enough for every command to succeed; looks that are equal are what a replay should end up with, and those are kept as
long as each change, taken back, restores what was shown.

* `Change.apply_shows`, `Change.revert_shows` — a single change, done and taken back;
* `Follows.catchUp` — a catch-up succeeds and follows;
* `Context.tour_follows` — so does a tour through the log.
-/

namespace SearchLab

namespace Look

/-- The look after a search was marked as ended. -/
def marked (l : Look) (outcome : Outcome) : Look := if outcome = .none then l else l.withOutcome outcome

/-- The look after such a mark was taken away. -/
def unmarked (l : Look) (outcome : Outcome) : Look := if outcome = .none then l else l.withOutcome .none

/-- A likeness of looks that is kept when both are changed alike. -/
structure Likeness (R : Look → Look → Prop) : Prop where
  refl : ∀ l, R l l
  trans : ∀ {l l' l''}, R l l' → R l' l'' → R l l''
  matching : ∀ {l l'}, R l l' → Matches l l'
  set : ∀ {l l'} target property value, R l l' → R (l.set target property value) (l'.set target property value)
  outcome : ∀ {l l'} outcome, R l l' → R (l.withOutcome outcome) (l'.withOutcome outcome)

theorem likeness_eq : Likeness (· = ·) where
  refl _ := rfl
  trans := Eq.trans
  matching := by
    rintro l _ rfl
    exact .refl l
  set := by
    rintro l _ target property value rfl
    rfl
  outcome := by
    rintro l _ outcome rfl
    rfl

theorem likeness_matches : Likeness Matches where
  refl := .refl
  trans := .trans
  matching := id
  set target property value h := h.set target property value
  outcome _ h := ⟨h.slots, h.present⟩

namespace Likeness

variable {R : Look → Look → Prop} (h : Likeness R) {l l' : Look} (hlike : R l l')

include h hlike

theorem overlaid (values : Values) : R (l.overlaid values) (l'.overlaid values) := by
  induction values with
  | nil => exact hlike
  | cons v rest ih => exact h.set v.1.1 v.1.2 v.2 ih

theorem marked (outcome : Outcome) : R (l.marked outcome) (l'.marked outcome) := by
  unfold Look.marked
  split
  · exact hlike
  · exact h.outcome outcome hlike

theorem unmarked (outcome : Outcome) : R (l.unmarked outcome) (l'.unmarked outcome) := by
  unfold Look.unmarked
  split
  · exact hlike
  · exact h.outcome .none hlike

end Likeness

end Look

open Look

namespace Change

/-! ## What the layers show -/

/-- What the layers show after a change. -/
def effect : Change → List Look → List Look
  | .layer (some g), looks => g.look :: looks
  | .outcome o, l :: below => l.marked o :: below
  | .properties changes, l :: below => l.written changes :: below
  | _, looks => looks

/-- What they show after a change was taken back. -/
def retraction : Change → List Look → List Look
  | .layer _, looks => looks.tail
  | .outcome o, l :: below => l.unmarked o :: below
  | .properties changes, l :: below => l.restored changes :: below
  | _, looks => looks

/-- A change can be done where this is shown, and taken back behind it. -/
def Suits : Change → List Look → Prop
  | .layer held, _ => held.isSome = true
  | .outcome _, looks => looks ≠ []
  | .properties changes, l :: _ =>
    ∀ c ∈ changes, l.Takes c.target c.property c.old ∧ l.Takes c.target c.property c.new
  | _, _ => False

/-- What has become of a change in the log, where it is done or not: the graph that it pushes it holds only while it is
not, and then one that is like it. -/
def Stands (R : Look → Look → Prop) : Change → Bool → Change → Prop
  | .layer (some _), true, body => body = .layer none
  | .layer (some g), false, body => ∃ g', body = .layer (some g') ∧ R g'.look g.look
  | change, _, body => body = change

variable {R : Look → Look → Prop}

theorem stands_refl (h : Likeness R) (change : Change) (hsuits : ∃ looks, change.Suits looks) :
    change.Stands R false change := by
  obtain ⟨looks, hsuits⟩ := hsuits
  cases change with
  | layer held =>
      obtain ⟨g, rfl⟩ := Option.isSome_iff_exists.mp hsuits
      exact ⟨g, rfl, h.refl g.look⟩
  | _ => rfl

theorem markOutcome_shows (outcome : Outcome) (g : Graph) :
    ∃ g', markOutcome outcome g = .ok () g' ∧ g'.look = g.look.marked outcome := by
  refine ⟨_, Edit.modify_ok _ g, ?_⟩
  unfold Look.marked
  split <;> rfl

theorem unmarkOutcome_shows (outcome : Outcome) (g : Graph) :
    ∃ g', unmarkOutcome outcome g = .ok () g' ∧ g'.look = g.look.unmarked outcome := by
  refine ⟨_, Edit.modify_ok _ g, ?_⟩
  unfold Look.unmarked
  split <;> rfl

/-- Whatever a change has for its old values, taking it back leaves what is addressed and where something is shown. -/
theorem retraction_matches {change : Change} {looks : List Look} (hsuits : change.Suits looks) :
    List.Forall₂ Matches (change.retraction (change.effect looks)) looks := by
  have hrefl : ∀ looks : List Look, List.Forall₂ Matches looks looks := fun looks => by
    induction looks with
    | nil => exact .nil
    | cons l rest ih => exact .cons (.refl l) ih
  cases change with
  | layer held =>
      obtain ⟨g, rfl⟩ := Option.isSome_iff_exists.mp hsuits
      exact hrefl looks
  | outcome o =>
      cases looks with
      | nil => exact absurd rfl hsuits
      | cons l below =>
          refine .cons ?_ (hrefl below)
          unfold Look.unmarked Look.marked
          split <;> exact ⟨rfl, fun _ => rfl⟩
  | properties changes =>
      cases looks with
      | nil => exact absurd hsuits id
      | cons l below =>
          exact .cons ((l.matches_overlaid _).trans ((l.overlaid _).matches_overlaid _)).symm (hrefl below)
  | toggle id previous => cases hsuits
  | custom forward backward => cases hsuits

/-- A change succeeds on layers that are like those it suits, and leaves layers like those it is to lead to. -/
theorem apply_shows (h : Likeness R) {change body : Change} {looks : List Look} {layers : Layers}
    (hsuits : change.Suits looks) (hstands : change.Stands R false body)
    (hlayers : List.Forall₂ R (layers.map Graph.look) looks) :
    ∃ body' layers', apply (body, layers) = .ok () (body', layers') ∧ change.Stands R true body' ∧
      List.Forall₂ R (layers'.map Graph.look) (change.effect looks) := by
  cases change with
  | layer held =>
      obtain ⟨g, rfl⟩ := Option.isSome_iff_exists.mp hsuits
      obtain ⟨g', rfl, hlike⟩ := hstands
      exact ⟨.layer none, g' :: layers, rfl, rfl, .cons hlike hlayers⟩
  | outcome o =>
      obtain rfl : body = .outcome o := hstands
      cases layers with
      | nil => cases hlayers; exact absurd rfl hsuits
      | cons g below =>
          cases hlayers with
          | cons hlike hbelow =>
              obtain ⟨g', hrun, hlook⟩ := markOutcome_shows o g
              refine ⟨.outcome o, g' :: below, by simp [apply, keeping, onTop, hrun], rfl, .cons ?_ hbelow⟩
              rw [hlook]
              exact h.marked hlike o
  | properties changes =>
      obtain rfl : body = .properties changes := hstands
      cases layers with
      | nil => cases hlayers; exact absurd hsuits id
      | cons g below =>
          cases hlayers with
          | cons hlike hbelow =>
              have htakes : ∀ c ∈ changes, g.look.Takes c.target c.property c.new := fun c hc =>
                (hsuits c hc).2.of_matches (h.matching hlike).symm
              obtain ⟨g', hrun, hlook⟩ := setNew_shows htakes
              refine ⟨.properties changes, g' :: below, by simp [apply, keeping, onTop, hrun], rfl, .cons ?_ hbelow⟩
              rw [hlook]
              exact h.overlaid hlike _
  | toggle id previous => cases hsuits
  | custom forward backward => cases hsuits

/-- Taken back, a change succeeds on layers that are like those it has led to. -/
theorem revert_shows (h : Likeness R) {change body : Change} {looks : List Look} {layers : Layers}
    (hsuits : change.Suits looks) (hstands : change.Stands R true body)
    (hlayers : List.Forall₂ R (layers.map Graph.look) (change.effect looks)) :
    ∃ body' layers', revert (body, layers) = .ok () (body', layers') ∧ change.Stands R false body' ∧
      List.Forall₂ R (layers'.map Graph.look) (change.retraction (change.effect looks)) := by
  cases change with
  | layer held =>
      obtain ⟨g, rfl⟩ := Option.isSome_iff_exists.mp hsuits
      obtain rfl : body = .layer none := hstands
      cases layers with
      | nil => cases hlayers
      | cons g' below =>
          cases hlayers with
          | cons hlike hbelow => exact ⟨.layer (some g'), below, rfl, ⟨g', rfl, hlike⟩, hbelow⟩
  | outcome o =>
      obtain rfl : body = .outcome o := hstands
      cases looks with
      | nil => exact absurd rfl hsuits
      | cons l rest =>
          cases layers with
          | nil => cases hlayers
          | cons g below =>
              cases hlayers with
              | cons hlike hbelow =>
                  obtain ⟨g', hrun, hlook⟩ := unmarkOutcome_shows o g
                  refine ⟨.outcome o, g' :: below, by simp [revert, keeping, onTop, hrun], rfl, .cons ?_ hbelow⟩
                  rw [hlook]
                  exact h.unmarked hlike o
  | properties changes =>
      obtain rfl : body = .properties changes := hstands
      cases looks with
      | nil => exact absurd hsuits id
      | cons l rest =>
          cases layers with
          | nil => cases hlayers
          | cons g below =>
              cases hlayers with
              | cons hlike hbelow =>
                  have hmatches : Matches l g.look := (l.matches_overlaid _).trans (h.matching hlike).symm
                  have htakes : ∀ c ∈ changes, g.look.Takes c.target c.property c.old := fun c hc =>
                    (hsuits c hc).1.of_matches hmatches
                  obtain ⟨g', hrun, hlook⟩ := setOld_shows htakes
                  refine ⟨.properties changes, g' :: below, by simp [revert, keeping, onTop, hrun], rfl,
                    .cons ?_ hbelow⟩
                  rw [hlook]
                  exact h.overlaid hlike _
  | toggle id previous => cases hsuits
  | custom forward backward => cases hsuits

end Change

/-! ## The log -/

theorem forall₂_trans {R : Look → Look → Prop} (hR : Likeness R) {looks looks' looks'' : List Look}
    (h : List.Forall₂ R looks looks') (h' : List.Forall₂ R looks' looks'') : List.Forall₂ R looks looks'' := by
  induction h generalizing looks'' with
  | nil =>
      cases h'
      exact .nil
  | cons hlike _ ih =>
      cases h' with
      | cons hlike' hrest => exact .cons (hR.trans hlike hlike') (ih hrest)

/-- What the layers show after some commands, done from the first one on. -/
def shownAfter (origin : List Look) (commands : List (Command Change)) : List Look :=
  commands.foldl (fun looks c => c.body.effect looks) origin

/-- Something holds of each command and what the layers show before it. -/
def Along (P : List Look → Command Change → Prop) (origin : List Look) (commands : List (Command Change)) : Prop :=
  ∀ (i : Nat) (c : Command Change), commands[i]? = some c → P (shownAfter origin (commands.take i)) c

/-- No command is done yet, and each can be done where the ones before it lead. -/
def Playable : List Look → List (Command Change) → Prop :=
  Along fun looks c => c.done = false ∧ c.body.Suits looks

/-- Each command, done where the ones before it lead and taken back, restores what is shown there. -/
def Restoring (R : Look → Look → Prop) : List Look → List (Command Change) → Prop :=
  Along fun looks c => List.Forall₂ R (c.body.retraction (c.body.effect looks)) looks

theorem along_concat {P : List Look → Command Change → Prop} {origin : List Look} {commands : List (Command Change)}
    {c : Command Change} :
    Along P origin (commands ++ [c]) ↔ Along P origin commands ∧ P (shownAfter origin commands) c := by
  constructor
  · intro h
    constructor
    · intro i d hd
      have hi := (List.getElem?_eq_some_iff.mp hd).1
      have hall := h i d (by rw [List.getElem?_append_left hi]; exact hd)
      rwa [List.take_append_of_le_length (Nat.le_of_lt hi)] at hall
    · simpa using h commands.length c (by simp)
  · rintro ⟨h, hlast⟩ i d hd
    rcases Nat.lt_or_ge i commands.length with hi | hi
    · rw [List.getElem?_append_left hi] at hd
      rw [List.take_append_of_le_length (Nat.le_of_lt hi)]
      exact h i d hd
    · have hlt := (List.getElem?_eq_some_iff.mp hd).1
      rw [List.length_append, List.length_singleton] at hlt
      obtain rfl : i = commands.length := by omega
      obtain rfl : c = d := by simpa using hd
      simpa using hlast

theorem restoring_matches {origin : List Look} {commands : List (Command Change)}
    (hplayable : Playable origin commands) : Restoring Matches origin commands :=
  fun i c hc => Change.retraction_matches (hplayable i c hc).2

/-- A log holds some commands with nothing put aside, and the layers are like those that the commands before `executed`
lead to. -/
structure Follows (R : Look → Look → Prop) (origin : List Look) (commands : List (Command Change)) (log : Log Change)
    (layers : Layers) : Prop where
  size : log.size = commands.length
  detached : log.detached = []
  current_le : log.current ≤ commands.length
  executed_le : log.executed ≤ commands.length
  stands : ∀ {i : Nat} {c : Command Change}, commands[i]? = some c →
    ∃ c', log.commands[i]? = some c' ∧ c'.done = decide (i < log.executed) ∧
      c.body.Stands R (decide (i < log.executed)) c'.body
  shows : List.Forall₂ R (layers.map Graph.look) (shownAfter origin (commands.take log.executed))

theorem shownAfter_take_succ {origin : List Look} {commands : List (Command Change)} {i : Nat} {c : Command Change}
    (h : commands[i]? = some c) :
    shownAfter origin (commands.take (i + 1)) = c.body.effect (shownAfter origin (commands.take i)) := by
  rw [List.take_add_one, h, shownAfter, List.foldl_append]
  rfl

variable {R : Look → Look → Prop} {origin : List Look} {commands : List (Command Change)} {log : Log Change}
  {layers : Layers}

namespace Follows

/-- A log in which one command was replaced follows if the new one stands as it should, the other flags agree with
`executed`, and so do the layers. -/
theorem of_replaced (h : Follows R origin commands log layers) {i executed : Nat} {c c' : Command Change}
    {layers' : Layers} (hc : commands[i]? = some c) (hle : executed ≤ commands.length)
    (hothers : ∀ j, j ≠ i → (j < log.executed ↔ j < executed)) (hdone : c'.done = decide (i < executed))
    (hstands : c.body.Stands R (decide (i < executed)) c'.body)
    (hshows : List.Forall₂ R (layers'.map Graph.look) (shownAfter origin (commands.take executed))) :
    Follows R origin commands { log with commands := log.commands.setIfInBounds i c', executed } layers' where
  size := by simpa [Log.size] using h.size
  detached := h.detached
  current_le := h.current_le
  executed_le := hle
  stands := by
    intro j d hd
    by_cases hij : i = j
    · subst hij
      obtain rfl : c = d := Option.some.inj (hc.symm.trans hd)
      have hi : i < log.commands.size :=
        Nat.lt_of_lt_of_eq (List.getElem?_eq_some_iff.mp hc).1 h.size.symm
      exact ⟨c', by simp [hi], hdone, hstands⟩
    · obtain ⟨d', hd', hdone', hstands'⟩ := h.stands hd
      have hsame : decide (j < log.executed) = decide (j < executed) := decide_eq_decide.mpr (hothers j (Ne.symm hij))
      rw [hsame] at hdone' hstands'
      exact ⟨d', by simp [hij, hd'], hdone', hstands'⟩
  shows := hshows

/-- Doing the next command succeeds and follows. -/
theorem executeNext (hR : Likeness R) (hplayable : Playable origin commands) (h : Follows R origin commands log layers)
    (hlt : log.executed < commands.length) :
    ∃ x log' layers', Log.executeNext (log, layers) = .ok x (log', layers') ∧
      Follows R origin commands log' layers' ∧ log'.executed = log.executed + 1 ∧ log'.current = log.current := by
  obtain ⟨c, hc⟩ : ∃ c, commands[log.executed]? = some c := ⟨_, List.getElem?_eq_getElem hlt⟩
  obtain ⟨c', hc', hdone, hstands⟩ := h.stands hc
  simp only [Nat.lt_irrefl, decide_false] at hdone hstands
  obtain ⟨body, layers', hrun, hbody, hshows⟩ := Change.apply_shows hR (hplayable _ c hc).2 hstands h.shows
  have happly : Reversible.apply (c'.body, layers) = .ok () (body, layers') := hrun
  rw [← shownAfter_take_succ hc] at hshows
  refine ⟨⟨log.executed, c'.name, .executed⟩,
    { log with
      commands := log.commands.setIfInBounds log.executed { c' with body, done := true }
      executed := log.executed + 1 },
    layers', ?_, h.of_replaced hc hlt ?_ ?_ ?_ hshows, rfl, rfl⟩
  · simp only [Log.executeNext, hc', Command.execute_of_not_done hdone, happly]
  · intro j hj
    omega
  · simp
  · simpa using hbody

/-- Taking the last command back succeeds. It follows if the command restores what was shown. -/
theorem revertLast (hR : Likeness R) (hplayable : Playable origin commands) (h : Follows R origin commands log layers)
    {i : Nat} {c : Command Change} (hi : log.executed = i + 1) (hc : commands[i]? = some c) :
    ∃ x log' layers', Log.revertLast (log, layers) = .ok x (log', layers') ∧
      List.Forall₂ R (layers'.map Graph.look)
        (c.body.retraction (c.body.effect (shownAfter origin (commands.take i)))) ∧
      (List.Forall₂ R (layers'.map Graph.look) (shownAfter origin (commands.take i)) →
        Follows R origin commands log' layers') ∧
      log'.executed = i ∧ log'.current = log.current := by
  obtain ⟨c', hc', hdone, hstands⟩ := h.stands hc
  have hbefore : i < log.executed := by omega
  simp only [hbefore, decide_true] at hdone hstands
  have hlayers := h.shows
  rw [hi, shownAfter_take_succ hc] at hlayers
  obtain ⟨body, layers', hrun, hbody, hshows⟩ := Change.revert_shows hR (hplayable i c hc).2 hstands hlayers
  have hrevert : Reversible.revert (c'.body, layers) = .ok () (body, layers') := hrun
  have hindex : log.executed - 1 = i := by omega
  refine ⟨⟨i, c'.name, .reverted⟩,
    { log with commands := log.commands.setIfInBounds i { c' with body, done := false }, executed := i }, layers',
    ?_, hshows, ?_, rfl, rfl⟩
  · simp only [Log.revertLast, hindex, hc', Command.revert_of_done hdone, hrevert]
  · intro hback
    have hle := h.executed_le
    refine h.of_replaced hc (by omega) ?_ ?_ ?_ hback
    · intro j hj
      omega
    · simp
    · simpa using hbody

end Follows

/-- With nothing put aside, a catch-up does commands and then takes some back. -/
theorem catchUp_of_runs {log log₁ log₂ : Log Change} {layers layers₁ layers₂ : Layers} {done undone : List Touched}
    (hdetached : log.detached = [])
    (hdone : Log.times Log.executeNext (log.current - log.executed) (log, layers) = .ok done (log₁, layers₁))
    (hundone : Log.times Log.revertLast (log.executed - log.current) (log₁, layers₁) = .ok undone (log₂, layers₂)) :
    Log.catchUp (log, layers) = .ok (done ++ undone) (log₂, layers₂) := by
  have hdropped : Log.times Log.revertDetached log.detached.length (log, layers) = .ok [] (log, layers) := by
    rw [hdetached]
    rfl
  unfold Log.catchUp
  exact (Edit.bind_ok hdropped).trans ((Edit.bind_ok hdone).trans (Edit.bind_ok hundone))

namespace Follows

/-- Doing some more commands succeeds and follows. -/
theorem executeAll (hR : Likeness R) (hplayable : Playable origin commands) {n : Nat}
    (h : Follows R origin commands log layers) (hn : log.executed + n ≤ commands.length) :
    ∃ xs log' layers', Log.times Log.executeNext n (log, layers) = .ok xs (log', layers') ∧
      Follows R origin commands log' layers' ∧ log'.executed = log.executed + n ∧ log'.current = log.current := by
  induction n generalizing log layers with
  | zero => exact ⟨[], log, layers, rfl, h, rfl, rfl⟩
  | succ n ih =>
      obtain ⟨x, log₁, layers₁, hfirst, h₁, hexecuted₁, hcurrent₁⟩ := h.executeNext hR hplayable (by omega)
      obtain ⟨xs, log', layers', hrest, h', hexecuted', hcurrent'⟩ := ih h₁ (by omega)
      exact ⟨x :: xs, log', layers', (Edit.bind_ok hfirst).trans (Edit.bind_ok hrest), h', by omega,
        hcurrent'.trans hcurrent₁⟩

/-- Taking some commands back succeeds, and follows where they restore what was shown. -/
theorem revertAll (hR : Likeness R) (hplayable : Playable origin commands) (hrestoring : Restoring R origin commands)
    {n : Nat} (h : Follows R origin commands log layers) (hn : n ≤ log.executed) :
    ∃ xs log' layers', Log.times Log.revertLast n (log, layers) = .ok xs (log', layers') ∧
      Follows R origin commands log' layers' ∧ log'.executed = log.executed - n ∧ log'.current = log.current := by
  induction n generalizing log layers with
  | zero => exact ⟨[], log, layers, rfl, h, rfl, rfl⟩
  | succ n ih =>
      obtain ⟨i, hi⟩ : ∃ i, log.executed = i + 1 := ⟨log.executed - 1, by omega⟩
      have hlt : i < commands.length := by
        have := h.executed_le
        omega
      have hc : commands[i]? = some commands[i] := List.getElem?_eq_getElem hlt
      obtain ⟨x, log₁, layers₁, hfirst, hshows, hfollows, hexecuted₁, hcurrent₁⟩ := h.revertLast hR hplayable hi hc
      have h₁ := hfollows (forall₂_trans hR hshows (hrestoring i _ hc))
      obtain ⟨xs, log', layers', hrest, h', hexecuted', hcurrent'⟩ := ih h₁ (by omega)
      exact ⟨x :: xs, log', layers', (Edit.bind_ok hfirst).trans (Edit.bind_ok hrest), h', by omega,
        hcurrent'.trans hcurrent₁⟩

/-- A catch-up succeeds and follows; commands that it takes back must restore what was shown. -/
theorem catchUp (hR : Likeness R) (hplayable : Playable origin commands)
    (hrestoring : log.current < log.executed → Restoring R origin commands) (h : Follows R origin commands log layers) :
    ∃ xs log' layers', Log.catchUp (log, layers) = .ok xs (log', layers') ∧
      Follows R origin commands log' layers' ∧ log'.executed = log.current ∧ log'.current = log.current := by
  have hcurrent := h.current_le
  rcases Nat.lt_or_ge log.current log.executed with hlt | hge
  · obtain ⟨xs, log', layers', hrun, h', hexecuted, hsame⟩ :=
      h.revertAll hR hplayable (hrestoring hlt) (Nat.sub_le log.executed log.current)
    have hnone : log.current - log.executed = 0 := by omega
    exact ⟨_, log', layers', catchUp_of_runs h.detached (by rw [hnone]; rfl) hrun, h', by omega, hsame⟩
  · obtain ⟨xs, log', layers', hrun, h', hexecuted, hsame⟩ :=
      h.executeAll hR hplayable (n := log.current - log.executed) (by omega)
    have hnone : log.executed - log.current = 0 := by omega
    exact ⟨_, log', layers', catchUp_of_runs h.detached hrun (by rw [hnone]; rfl), h', by omega, hsame⟩

end Follows

/-! ## Contexts -/

namespace Log

/-- Commands added to a log that stands at its end come behind the others. -/
theorem foldl_add {β : Type} {log : Log β} (hcurrent : log.current = log.size) (hexecuted : log.executed ≤ log.size)
    (commands : List (Command β)) :
    commands.foldl Log.add log =
      { log with commands := log.commands ++ commands.toArray, current := log.size + commands.length } := by
  induction commands generalizing log with
  | nil => simp [← hcurrent]
  | cons c rest ih =>
      have hadd : log.add c = { log with commands := log.commands.push c, current := log.size + 1 } := by
        have hnone : log.executed - log.commands.size = 0 := Nat.sub_eq_zero_of_le hexecuted
        have hmin : min log.executed log.commands.size = log.executed := Nat.min_eq_left hexecuted
        simp [add, truncate, hnone, hmin, hcurrent, size]
      rw [List.foldl_cons, hadd, ih (by simp [size]) (by simp [size] at hexecuted ⊢; omega)]
      simp [size, Nat.add_assoc, Nat.add_comm 1]

end Log

namespace Context

/-- Goes to a place in the log and brings the layers there. -/
def visit (position : Nat) : Edit Context Unit := do
  onLog (Log.seek position)
  let _ ← catchUp

/-- Goes to one place in the log after the other. -/
def tour (positions : List Nat) : Edit Context Unit := positions.forM visit

/-- Steps loaded into the context of a graph: their commands are in the log, and none is done. -/
theorem loadSteps_ofGraph (g : Graph) (steps : List Step) :
    loadSteps steps (ofGraph (some g)) =
      .ok (steps.filterMap Step.command).length
        { layers := [g], log := { commands := (steps.filterMap Step.command).toArray } } := by
  have hadd : (steps.filterMap Step.command).foldl Log.add ({} : Log Change) =
      { commands := (steps.filterMap Step.command).toArray, current := (steps.filterMap Step.command).length } := by
    rw [Log.foldl_add rfl (Nat.le_refl 0)]
    simp [Log.size]
  unfold loadSteps
  rw [Edit.bind_ok (Edit.modify_ok _ _), Edit.get_bind]
  simp only [ofGraph, hadd]
  rfl

theorem follows_loaded (hR : Likeness R) {g : Graph} {commands : List (Command Change)}
    (hplayable : Playable [g.look] commands) :
    Follows R [g.look] commands { commands := commands.toArray } [g] where
  size := by simp [Log.size]
  detached := rfl
  current_le := Nat.zero_le _
  executed_le := Nat.zero_le _
  stands := by
    intro i c hc
    refine ⟨c, by simpa using hc, ?_, ?_⟩
    · simpa using (hplayable i c hc).1
    · simpa using Change.stands_refl hR c.body ⟨_, (hplayable i c hc).2⟩
  shows := .cons (hR.refl g.look) .nil

theorem visit_of_catchUp {c : Context} {position : Nat} {xs : List Touched} {log' : Log Change} {layers' : Layers}
    (hle : position ≤ c.log.size)
    (hrun : Log.catchUp ({ c.log with current := position }, c.layers) = .ok xs (log', layers')) :
    visit position c = .ok () { layers := layers', log := log' } := by
  have hseek : onLog (Log.seek position) c = .ok () { c with log := { c.log with current := position } } := by
    simp [onLog, Edit.onPart, Log.seek, Nat.not_lt.mpr hle]
  have hcatch : catchUp { c with log := { c.log with current := position } } =
      .ok xs { layers := layers', log := log' } := by
    simp [catchUp, hrun]
  exact (Edit.bind_ok hseek).trans (Edit.bind_ok hcatch)

/-- Going to a place succeeds and follows; commands that are taken back on the way must restore what was shown. -/
theorem visit_follows (hR : Likeness R) (hplayable : Playable origin commands) {c : Context} {position : Nat}
    (hrestoring : position < c.log.executed → Restoring R origin commands)
    (h : Follows R origin commands c.log c.layers) (hle : position ≤ commands.length) :
    ∃ c', visit position c = .ok () c' ∧ Follows R origin commands c'.log c'.layers ∧ c'.log.executed = position := by
  have hmoved : Follows R origin commands { c.log with current := position } c.layers := { h with current_le := hle }
  obtain ⟨xs, log', layers', hrun, h', hexecuted, -⟩ := hmoved.catchUp hR hplayable hrestoring
  exact ⟨_, visit_of_catchUp (Nat.le_trans hle (Nat.le_of_eq h.size.symm)) hrun, h', hexecuted⟩

/-- Going one place back takes back the last command, whatever that restores. -/
theorem visit_back (hR : Likeness R) (hplayable : Playable origin commands) {c : Context} {i : Nat}
    {command : Command Change} (hcommand : commands[i]? = some command)
    (h : Follows R origin commands c.log c.layers) (hi : c.log.executed = i + 1) :
    ∃ c', visit i c = .ok () c' ∧ List.Forall₂ R (c'.layers.map Graph.look)
      (command.body.retraction (command.body.effect (shownAfter origin (commands.take i)))) := by
  have hlt : i < commands.length := (List.getElem?_eq_some_iff.mp hcommand).1
  have hmoved : Follows R origin commands { c.log with current := i } c.layers :=
    { h with current_le := Nat.le_of_lt hlt }
  obtain ⟨x, log', layers', hrun, hshows, -⟩ := hmoved.revertLast hR hplayable hi hcommand
  have hnone : i - c.log.executed = 0 := by omega
  have hone : c.log.executed - i = 1 := by omega
  have hdone : Log.times Log.executeNext (i - c.log.executed) ({ c.log with current := i }, c.layers) =
      .ok [] ({ c.log with current := i }, c.layers) := by
    rw [hnone]
    rfl
  have hundone : Log.times Log.revertLast (c.log.executed - i) ({ c.log with current := i }, c.layers) =
      .ok [x] (log', layers') := by
    rw [hone]
    exact (Edit.bind_ok hrun).trans rfl
  have hcatch := catchUp_of_runs hmoved.detached hdone hundone
  exact ⟨_, visit_of_catchUp (h.size ▸ Nat.le_of_lt hlt) hcatch, hshows⟩

/-- A tour succeeds and follows, where commands restore what was shown. -/
theorem tour_follows (hR : Likeness R) (hplayable : Playable origin commands)
    (hrestoring : Restoring R origin commands) {positions : List Nat} {c : Context}
    (h : Follows R origin commands c.log c.layers) (hle : ∀ p ∈ positions, p ≤ commands.length) :
    ∃ c', tour positions c = .ok () c' ∧ Follows R origin commands c'.log c'.layers := by
  induction positions generalizing c with
  | nil => exact ⟨c, rfl, h⟩
  | cons position rest ih =>
      obtain ⟨m, hfirst, hm, -⟩ := visit_follows hR hplayable (fun _ => hrestoring) h (hle position List.mem_cons_self)
      obtain ⟨c', hrest, h'⟩ := ih hm fun p hp => hle p (List.mem_cons_of_mem position hp)
      exact ⟨c', (Edit.bind_ok hfirst).trans hrest, h'⟩

end Context

end SearchLab
