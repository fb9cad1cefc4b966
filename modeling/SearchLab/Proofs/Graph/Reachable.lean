import SearchLab.Proofs.Graph.Ledger
import SearchLab.Proofs.Notation.Accepted

/-!
# The graphs that there can be

A graph is new, or read from a text, and then whatever operations are made of it. All such graphs have right addresses
and a right index.
-/

namespace SearchLab.Graph

/-- The graphs that operations lead to, from a new graph or from one that was read. -/
inductive Reachable : Graph → Prop
  | fresh {g : Graph} (h : Fresh g) : Reachable g
  | read {text : String} {g : Graph} (h : Notation.read text = .ok g) : Reachable g
  | run {g : Graph} (h : Reachable g) (op : Operation) : Reachable (op.run g)

theorem Reachable.arena_indexed {g : Graph} (h : g.Reachable) : g.Arena ∧ g.Indexed := by
  induction h with
  | fresh hfresh => exact hfresh.arena_indexed []
  | read hread =>
      rcases Notation.accepted_or_standing hread with haccepted | ⟨_, _, _, _, _, _, hstanding⟩
      · exact ⟨haccepted.mutated.arena, indexed_of_path (Fresh.freeForm.arena_indexed []).2 haccepted.mutated.path⟩
      · obtain ⟨d, hlattice, -⟩ := hstanding.lattice
        exact ⟨hlattice.wired.arena, hlattice.wired.indexed⟩
  | run _ op ih =>
      have hrun := op.mutated_run ih.1
      exact ⟨hrun.arena, indexed_of_path ih.2 hrun.path⟩

theorem Reachable.runAll {g : Graph} (h : g.Reachable) (ops : List Operation) : (Graph.runAll ops g).Reachable := by
  induction ops generalizing g with
  | nil => exact h
  | cons op ops ih => exact ih (h.run op)

/-- A node with a new id is added to a free-form graph. -/
theorem run_addNode {g : Graph} {id : String} (data : Bag) (hfree : g.isGrid = false) (hnew : g.slot? id = none) :
    (Operation.addNode id data).run g = g.withNode id 0 0 data :=
  Edit.after_ok (Edit.bind_ok (addNode_ok_iff.mpr ⟨hfree, hnew, rfl, rfl⟩))

theorem Reachable.withNode {g : Graph} (h : g.Reachable) (id : String) (data : Bag) (hfree : g.isGrid = false)
    (hnew : g.slot? id = none) : (g.withNode id 0 0 data).Reachable := by
  rw [← run_addNode data hfree hnew]
  exact h.run (.addNode id data)

end SearchLab.Graph
