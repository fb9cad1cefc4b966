import SearchLab.Error

/-!
# What an edit leaves behind

An edit says what the state is whether it fails or not. `after` is that state, and a property that an edit
keeps holds of it whenever it held before. The edits of this library are put together from a few: what each of
those keeps is enough to know what all of them keep.
-/

namespace SearchLab.Edit

variable {σ α β : Type}

/-- The state that an edit leaves behind, also when it fails. -/
def after (edit : Edit σ α) (s : σ) : σ :=
  match edit s with
  | .ok _ s => s
  | .error _ s => s

theorem after_ok {edit : Edit σ α} {s s' : σ} {a : α} (h : edit s = .ok a s') : edit.after s = s' := by
  simp [after, h]

theorem after_error {edit : Edit σ α} {s s' : σ} {e : Error} (h : edit s = .error e s') :
    edit.after s = s' := by
  simp [after, h]

/-! ## What an edit does where its parts succeed -/

theorem bind_ok {edit : Edit σ α} {next : α → Edit σ β} {s s' : σ} {a : α} (h : edit s = .ok a s') :
    (edit >>= next) s = next a s' := by
  simp [Bind.bind, EStateM.bind, h]

theorem bind_error {edit : Edit σ α} {next : α → Edit σ β} {s s' : σ} {e : Error} (h : edit s = .error e s') :
    (edit >>= next) s = .error e s' := by
  simp [Bind.bind, EStateM.bind, h]

/-- Where two edits in a row succeed, each of them does. -/
theorem of_bind_ok {edit : Edit σ α} {next : α → Edit σ β} {s t : σ} {b : β} (h : (edit >>= next) s = .ok b t) :
    ∃ a u, edit s = .ok a u ∧ next a u = .ok b t := by
  cases hedit : edit s with
  | ok a u => exact ⟨a, u, rfl, (bind_ok hedit).symm.trans h⟩
  | error e u => cases (bind_error hedit).symm.trans h

/-- An edit whose answer is not used succeeds where it does on its own. -/
theorem of_discard_ok {edit : Edit σ α} {s t : σ} (h : (do let _ ← edit : Edit σ Unit) s = .ok () t) :
    ∃ a, edit s = .ok a t := by
  obtain ⟨a, u, hedit, hlast⟩ := of_bind_ok h
  cases hlast
  exact ⟨a, hedit⟩

/-- An edit whose answer is not used fails as it does on its own. -/
theorem of_discard_error {edit : Edit σ α} {s t : σ} {e : Error}
    (h : (do let _ ← edit : Edit σ Unit) s = .error e t) : edit s = .error e t := by
  cases hedit : edit s with
  | ok a u =>
      have hends : (do let _ ← edit : Edit σ Unit) s = .ok () u := bind_ok hedit
      cases hends.symm.trans h
  | error e' u =>
      have hends : (do let _ ← edit : Edit σ Unit) s = .error e' u := bind_error hedit
      cases hends.symm.trans h
      rfl

theorem check_ok {answer : σ → Except Error α} {s : σ} {a : α} (h : answer s = .ok a) :
    Edit.check answer s = .ok a s := by
  simp [Edit.check, h]

theorem check_error {answer : σ → Except Error α} {s : σ} {e : Error} (h : answer s = .error e) :
    Edit.check answer s = .error e s := by
  simp [Edit.check, h]

theorem of_check_bind {answer : σ → Except Error α} {next : α → Edit σ β} {s t : σ} {b : β}
    (h : (Edit.check answer >>= next) s = .ok b t) : ∃ a, answer s = .ok a ∧ next a s = .ok b t := by
  cases hanswer : answer s with
  | ok a => exact ⟨a, rfl, (bind_ok (check_ok hanswer)).symm.trans h⟩
  | error e => cases (bind_error (check_error hanswer)).symm.trans h

theorem of_require_bind {value : Option α} {e : Error} {next : α → Edit σ β} {s t : σ} {b : β}
    (h : (Edit.require value e >>= next) s = .ok b t) : ∃ a, value = some a ∧ next a s = .ok b t := by
  cases value with
  | some a => exact ⟨a, rfl, h⟩
  | none => cases h

theorem modify_ok (f : σ → σ) (s : σ) : (modify f : Edit σ Unit) s = .ok () (f s) :=
  rfl

theorem get_bind (next : σ → Edit σ β) (s : σ) : ((MonadState.get : Edit σ σ) >>= next) s = next s s :=
  rfl

/-- Edits for the members of two lists, where those for the first succeed. -/
theorem forM_append {first second : List α} {edit : α → Edit σ Unit} {s s' : σ}
    (h : first.forM edit s = .ok () s') : (first ++ second).forM edit s = second.forM edit s' := by
  induction first generalizing s with
  | nil =>
      cases h
      rfl
  | cons a rest ih =>
      cases hfirst : edit a s with
      | error e t =>
          have hfails : (a :: rest).forM edit s = .error e t := bind_error hfirst
          rw [hfails] at h
          exact absurd h (by simp)
      | ok u t =>
          have hrest : (a :: rest).forM edit s = rest.forM edit t := bind_ok hfirst
          rw [hrest] at h
          have hall : (a :: (rest ++ second)).forM edit s = (rest ++ second).forM edit t := bind_ok hfirst
          rw [List.cons_append, hall, ih h]

/-- Where edits for the members of a list fail, there is a first one that does, and those before it succeed. -/
theorem of_forM_error {members : List α} {edit : α → Edit σ Unit} {s t : σ} {e : Error}
    (h : members.forM edit s = .error e t) :
    ∃ before a behind u, members = before ++ a :: behind ∧ before.forM edit s = .ok () u ∧ edit a u = .error e t := by
  induction members generalizing s with
  | nil => cases h
  | cons a rest ih =>
      cases hfirst : edit a s with
      | error e' t' =>
          have hfails : (a :: rest).forM edit s = .error e' t' := bind_error hfirst
          cases hfails.symm.trans h
          exact ⟨[], a, rest, s, rfl, rfl, hfirst⟩
      | ok u s' =>
          have hrest : (a :: rest).forM edit s = rest.forM edit s' := bind_ok hfirst
          obtain ⟨before, b, behind, u, rfl, hbefore, hb⟩ := ih (hrest.symm.trans h)
          exact ⟨a :: before, b, behind, u, rfl, (bind_ok hfirst).trans hbefore, hb⟩

/-- Edits for the members of a list fail where that for one of them always does. -/
theorem forM_fails {members : List α} {edit : α → Edit σ Unit} {a : α} (ha : a ∈ members)
    (hfails : ∀ s, ∃ e t, edit a s = .error e t) (s : σ) : ∃ e t, members.forM edit s = .error e t := by
  induction members generalizing s with
  | nil => exact absurd ha List.not_mem_nil
  | cons b rest ih =>
      cases hfirst : edit b s with
      | error e t => exact ⟨e, t, bind_error hfirst⟩
      | ok u t =>
          have hrest : (b :: rest).forM edit s = rest.forM edit t := bind_ok hfirst
          rw [hrest]
          refine ih ((List.mem_cons.mp ha).resolve_left ?_) t
          rintro rfl
          obtain ⟨e, t', herror⟩ := hfails s
          rw [hfirst] at herror
          cases herror

/-- Edits for the members of a list succeed where each does, and what the edit for a member reaches, those behind it
keep. -/
theorem forM_reaches (members : List α) (edit : α → Edit σ Unit) (Leads : σ → σ → Prop) (Reached : α → σ → Prop)
    (start : σ) (hrefl : ∀ s, Leads s s) (htrans : ∀ {s t u}, Leads s t → Leads t u → Leads s u)
    (hkeeps : ∀ {a s t}, Leads s t → Reached a s → Reached a t)
    (hstep : ∀ a ∈ members, ∀ s, Leads start s → ∃ t, edit a s = .ok () t ∧ Leads s t ∧ Reached a t) :
    ∃ t, members.forM edit start = .ok () t ∧ Leads start t ∧ ∀ a ∈ members, Reached a t := by
  induction members generalizing start with
  | nil => exact ⟨start, rfl, hrefl start, by simp⟩
  | cons a rest ih =>
      obtain ⟨s, hfirst, hleads, hreached⟩ := hstep a List.mem_cons_self start (hrefl start)
      obtain ⟨t, hrest, hbehind, hall⟩ := ih s fun b hb u hu =>
        hstep b (List.mem_cons_of_mem a hb) u (htrans hleads hu)
      refine ⟨t, (bind_ok hfirst).trans hrest, htrans hleads hbehind, ?_⟩
      intro b hb
      rcases List.mem_cons.mp hb with rfl | hb
      · exact hkeeps hbehind hreached
      · exact hall b hb

/-- Edits for what is shown of the members of a list. Each turns a member that is fresh into one that is done and
leaves the others as they are; a member of which nothing is shown stays fresh. -/
theorem forM_shown {γ : Type} {members : List α} {shown : α → Option γ} {steps : List β} {key : β → γ}
    (edit : β → Edit σ Unit) (P : σ → Prop) (Fresh Done : α → σ → Prop)
    (hsteps : steps.map key = members.filterMap shown) (hnodup : members.Nodup) {s : σ} (hs : P s)
    (hfresh : ∀ a ∈ members, Fresh a s)
    (hstep : ∀ a ∈ members, ∀ b, shown a = some (key b) → ∀ s, P s → Fresh a s →
      ∃ t, edit b s = .ok () t ∧ P t ∧ Done a t ∧
        ∀ c ∈ members, c ≠ a → (Fresh c s → Fresh c t) ∧ (Done c s → Done c t)) :
    ∃ t, steps.forM edit s = .ok () t ∧ P t ∧
      ∀ a ∈ members, (shown a = none → Fresh a t) ∧ ((shown a).isSome → Done a t) := by
  -- What was done before the members at hand is kept as well, so it is carried along.
  have hall : ∀ (rest done : List α) (steps : List β) (s : σ), members = done ++ rest →
      steps.map key = rest.filterMap shown → P s →
      (∀ a ∈ done, (shown a = none → Fresh a s) ∧ ((shown a).isSome → Done a s)) → (∀ a ∈ rest, Fresh a s) →
      ∃ t, steps.forM edit s = .ok () t ∧ P t ∧
        ∀ a ∈ members, (shown a = none → Fresh a t) ∧ ((shown a).isSome → Done a t) := by
    intro rest
    induction rest with
    | nil =>
        intro done steps s hmembers hsteps hs hdone _
        obtain rfl : steps = [] := by simpa using hsteps
        exact ⟨s, rfl, hs, by simpa [hmembers] using hdone⟩
    | cons a rest ih =>
        intro done steps s hmembers hsteps hs hdone hrest
        have hnext : members = (done ++ [a]) ++ rest := by simp [hmembers]
        have ha : a ∈ members := by simp [hmembers]
        cases hshown : shown a with
        | none =>
            rw [List.filterMap_cons_none hshown] at hsteps
            refine ih (done ++ [a]) steps s hnext hsteps hs ?_ fun c hc => hrest c (List.mem_cons_of_mem a hc)
            intro c hc
            rcases List.mem_append.mp hc with hc | hc
            · exact hdone c hc
            · obtain rfl := List.mem_singleton.mp hc
              exact ⟨fun _ => hrest c List.mem_cons_self, by simp [hshown]⟩
        | some k =>
            rw [List.filterMap_cons_some hshown] at hsteps
            obtain ⟨b, others, rfl, rfl, hothers⟩ := List.map_eq_cons_iff.mp hsteps
            obtain ⟨t, hedit, ht, hreached, hframe⟩ := hstep a ha b hshown s hs (hrest a List.mem_cons_self)
            have hnodup' : (done ++ a :: rest).Nodup := hmembers ▸ hnodup
            obtain ⟨_, htail, hapart⟩ := List.nodup_append.mp hnodup'
            obtain ⟨hfirst, _⟩ := List.nodup_cons.mp htail
            obtain ⟨u, hforM, hu, hfinal⟩ := ih (done ++ [a]) others t hnext hothers ht
              (by
                intro c hc
                rcases List.mem_append.mp hc with hc | hc
                · have hframe' := hframe c (by simp [hmembers, hc]) (hapart c hc a List.mem_cons_self)
                  exact ⟨fun h => hframe'.1 ((hdone c hc).1 h), fun h => hframe'.2 ((hdone c hc).2 h)⟩
                · obtain rfl := List.mem_singleton.mp hc
                  exact ⟨by simp [hshown], fun _ => hreached⟩)
              (by
                intro c hc
                have hne : c ≠ a := by
                  rintro rfl
                  exact hfirst hc
                exact (hframe c (by simp [hmembers, hc]) hne).1 (hrest c (List.mem_cons_of_mem a hc)))
            exact ⟨u, (bind_ok hedit).trans hforM, hu, hfinal⟩
  exact hall members [] steps s rfl hsteps hs (by simp) hfresh

/-! ## What an edit keeps -/

/-- An edit keeps a property of states, also when it fails. -/
def Keeps (P : σ → Prop) (edit : Edit σ α) : Prop :=
  ∀ s, P s → P (edit.after s)

namespace Keeps

variable {P : σ → Prop}

theorem pure (a : α) : Keeps P (pure a : Edit σ α) :=
  fun _ hs => hs

theorem check (answer : σ → Except Error α) : Keeps P (Edit.check answer) := by
  intro s hs
  cases h : answer s <;> simpa [after, Edit.check, h] using hs

theorem require (value : Option α) (e : Error) : Keeps P (Edit.require value e) := by
  intro s hs
  cases value <;> exact hs

theorem modify {f : σ → σ} (h : ∀ s, P s → P (f s)) : Keeps P (modify f : Edit σ Unit) :=
  h

theorem set {s : σ} (h : P s) : Keeps P (set s : Edit σ Unit) :=
  fun _ _ => h

/-- What two edits keep, the one after the other keeps. -/
theorem bind {edit : Edit σ α} {next : α → Edit σ β} (hedit : Keeps P edit)
    (hnext : ∀ a, Keeps P (next a)) : Keeps P (edit >>= next) := by
  intro s hs
  have hmiddle := hedit s hs
  cases h : edit s with
  | ok a t =>
      rw [after_ok h] at hmiddle
      have hlast := hnext a t hmiddle
      simpa [after, bind_ok h] using hlast
  | error e t =>
      rw [after_error h] at hmiddle
      simpa [after_error (bind_error h)] using hmiddle

/-- What an edit makes of the state it reads may rest on what holds of that state. -/
theorem bind_get {next : σ → Edit σ β} (h : ∀ s, P s → Keeps P (next s)) :
    Keeps P ((MonadState.get : Edit σ σ) >>= next) :=
  fun s hs => h s hs s hs

/-- What follows a check may rest on the answer. -/
theorem bind_check {answer : σ → Except Error α} {next : α → Edit σ β}
    (h : ∀ s a, P s → answer s = .ok a → P ((next a).after s)) : Keeps P (Edit.check answer >>= next) := by
  intro s hs
  cases hanswer : answer s with
  | ok a =>
      have hcheck : Edit.check answer s = .ok a s := check_ok hanswer
      have hnext := h s a hs hanswer
      simpa [after, bind_ok hcheck] using hnext
  | error e =>
      have hcheck : Edit.check answer s = .error e s := by simp [Edit.check, hanswer]
      rwa [after_error (bind_error hcheck)]

/-- What one edit for each member of a list keeps, all of them in turn keep. -/
theorem forM {members : List α} {edit : α → Edit σ Unit}
    (h : ∀ a ∈ members, Keeps P (edit a)) : Keeps P (members.forM edit) := by
  induction members with
  | nil => exact pure ()
  | cons a rest ih =>
      refine bind (h a List.mem_cons_self) fun _ => ih ?_
      exact fun b hb => h b (List.mem_cons_of_mem a hb)

/-- Edits for the members of a list succeed where each does as long as a property holds that they keep. -/
theorem forM_ok (members : List α) (edit : α → Edit σ Unit) (hkeeps : ∀ a ∈ members, Keeps P (edit a))
    (hok : ∀ a ∈ members, ∀ s, P s → ∃ t, edit a s = .ok () t) {s : σ} (hs : P s) :
    ∃ t, members.forM edit s = .ok () t ∧ P t := by
  induction members generalizing s with
  | nil => exact ⟨s, rfl, hs⟩
  | cons a rest ih =>
      obtain ⟨hfirst, hothers⟩ := List.forall_mem_cons.mp hkeeps
      obtain ⟨hokfirst, hokothers⟩ := List.forall_mem_cons.mp hok
      obtain ⟨t, ht⟩ := hokfirst s hs
      have hmiddle := hfirst s hs
      rw [after_ok ht] at hmiddle
      obtain ⟨u, hrest, hlast⟩ := ih hothers hokothers hmiddle
      exact ⟨u, (bind_ok ht).trans hrest, hlast⟩

end Keeps

/-! ## Edits that do the same -/

/-- Two edits come to the same result, and leave states that are related. -/
inductive Agree (R : σ → σ → Prop) : EStateM.Result Error σ α → EStateM.Result Error σ α → Prop
  | ok (a : α) {s t : σ} (h : R s t) : Agree R (.ok a s) (.ok a t)
  | error (e : Error) {s t : σ} (h : R s t) : Agree R (.error e s) (.error e t)

end SearchLab.Edit
