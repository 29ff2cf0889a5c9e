import Mathlib.Tactic

/-!
A task that serves a set of items in rounds, and requests for a round that coalesce.

* `Coalescer`: the task, the flag a request leaves while there is one, and a count of the requests,
  which nothing depends on.
* `Coalescer.Due`: a request has been made that the task has not yet come to serve for an item.
* `due_request`: a request makes every item due; `Due.begin`, `Due.take`, `Due.finish`: until the
  task takes it up, an item that every round starts with stays due.
-/

namespace P2Pearl

variable {α : Type}

namespace Coalescer

/-- Where a task is: created, or in a round with the items it has not yet taken up. -/
inductive Task (α : Type) where
  | created
  | round (items : List α)

end Coalescer

/-- A task, if there is one, whether it has been asked for another round, and the number of
requests there have been. -/
structure Coalescer (α : Type) where
  task : Option (Coalescer.Task α)
  again : Bool
  requests : ℕ

namespace Coalescer

/-- Nothing has been asked for. -/
def init : Coalescer α := ⟨none, false, 0⟩

/-- A request: it creates the task, or asks it for another round. -/
def request (T : Coalescer α) : Coalescer α :=
  match T.task with
  | none => { T with task := some .created, requests := T.requests + 1 }
  | some _ => { T with again := true, requests := T.requests + 1 }

/-- The task starts its first round. -/
def begin (T : Coalescer α) (items : List α) : Option (Coalescer α) :=
  match T.task with
  | some .created => some { T with task := some (.round items), again := false }
  | _ => none

/-- The task takes up the `i`-th item it has left. -/
def take (T : Coalescer α) (i : ℕ) : Option (α × Coalescer α) :=
  match T.task with
  | some (.round items) =>
      items[i]?.map fun a => (a, { T with task := some (.round (items.eraseIdx i)) })
  | _ => none

/-- The round is over: the task starts another one where it has been asked to, or ends. -/
def finish (T : Coalescer α) (items : List α) : Option (Coalescer α) :=
  match T.task with
  | some (.round []) =>
      some (if T.again then { T with task := some (.round items), again := false }
        else { T with task := none })
  | _ => none

/-- The task has still to take up an item with the property `p`, in this round or in another. -/
def Due (T : Coalescer α) (p : α → Prop) : Prop :=
  T.task = some .created
    ∨ ∃ items, T.task = some (.round items) ∧ (T.again = true ∨ ∃ a ∈ items, p a)

variable {T T' : Coalescer α} {p : α → Prop} {items : List α}

/-- Without a task, nothing is due. -/
lemma not_due_of_none (h : T.task = none) : ¬T.Due p := by
  rintro (hcreated | ⟨items, hround, -⟩)
  · rw [h] at hcreated; cases hcreated
  · rw [h] at hround; cases hround

@[simp] lemma requests_request (T : Coalescer α) : T.request.requests = T.requests + 1 := by
  rw [request]; split <;> rfl

/-- After a request every item is due. -/
lemma due_request (T : Coalescer α) (p : α → Prop) : T.request.Due p := by
  rw [request]
  cases htask : T.task with
  | none => exact Or.inl rfl
  | some task =>
      cases task with
      | created => exact Or.inl rfl
      | round items => exact Or.inr ⟨items, rfl, Or.inl rfl⟩

/-- The first round starts with what is due. -/
lemma due_of_begin (h : T.begin items = some T') (hmem : ∃ a ∈ items, p a) : T'.Due p := by
  rw [begin] at h
  split at h
  · cases h
    exact Or.inr ⟨items, rfl, Or.inr hmem⟩
  · cases h

/-- What the task does not take up stays due. -/
lemma Due.take (hdue : T.Due p) {i : ℕ} {a : α} (h : T.take i = some (a, T')) (ha : ¬p a) :
    T'.Due p := by
  rw [Coalescer.take] at h
  split at h
  · rename_i left hround
    obtain ⟨b, hb, heq⟩ := Option.map_eq_some_iff.mp h
    cases heq
    rcases hdue with hcreated | ⟨items, hitems, hdue⟩
    · rw [hround] at hcreated; cases hcreated
    · cases hround.symm.trans hitems
      refine Or.inr ⟨_, rfl, hdue.imp id fun ⟨c, hc, hpc⟩ => ⟨c, ?_, hpc⟩⟩
      obtain ⟨hi, rfl⟩ := List.getElem?_eq_some_iff.mp hb
      have hperm := List.getElem_cons_eraseIdx_perm hi
      rcases List.mem_cons.mp (hperm.symm.subset hc) with rfl | hrest
      · exact absurd hpc ha
      · exact hrest
  · cases h

/-- Another round starts with what is due; where there is none, nothing is. -/
lemma Due.finish (hdue : T.Due p) (h : T.finish items = some T') (hmem : ∃ a ∈ items, p a) :
    T'.Due p := by
  rw [Coalescer.finish] at h
  split at h
  · rename_i hround
    split_ifs at h with hagain
    · cases h
      exact Or.inr ⟨items, rfl, Or.inr hmem⟩
    · rcases hdue with hcreated | ⟨left, hleft, hdue⟩
      · rw [hround] at hcreated; cases hcreated
      · cases hround.symm.trans hleft
        rcases hdue with htrue | ⟨a, ha, -⟩
        · exact absurd htrue hagain
        · cases ha
  · cases h

end Coalescer

end P2Pearl
