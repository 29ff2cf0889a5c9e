import Mathlib.Tactic

/-!
The first largest entry of a log.

A log is kept newest first.  `IsFirstMax score log x` says that `x` is the entry of largest score
that came first.  A lighter or equal newcomer leaves it in place (`IsFirstMax.cons`), a strictly
heavier one replaces it (`isFirstMax_cons_of_lt`), and two logs with the same entries have first
maxima of the same score (`IsFirstMax.score_eq_of_perm`).
-/

namespace P2Pearl

variable {α β : Type} [LinearOrder β] {score : α → β} {log log' : List α} {x x' y : α}

/-- `x` is the first entry of largest score in a log kept newest first. -/
def IsFirstMax (score : α → β) (log : List α) (x : α) : Prop :=
  ∃ later earlier, log = later ++ x :: earlier
    ∧ (∀ y ∈ earlier, score y < score x) ∧ ∀ y ∈ later, score y ≤ score x

lemma IsFirstMax.mem (h : IsFirstMax score log x) : x ∈ log := by
  obtain ⟨later, earlier, rfl, -, -⟩ := h
  exact List.mem_append_right _ List.mem_cons_self

lemma IsFirstMax.le (h : IsFirstMax score log x) (hy : y ∈ log) : score y ≤ score x := by
  obtain ⟨later, earlier, rfl, he, hl⟩ := h
  rcases List.mem_append.mp hy with hy | hy
  · exact hl y hy
  · rcases List.mem_cons.mp hy with rfl | hy
    · exact le_rfl
    · exact (he y hy).le

/-- A newcomer that is not heavier leaves the first maximum in place. -/
lemma IsFirstMax.cons (h : IsFirstMax score log x) (hy : score y ≤ score x) :
    IsFirstMax score (y :: log) x := by
  obtain ⟨later, earlier, rfl, he, hl⟩ := h
  refine ⟨y :: later, earlier, rfl, he, fun z hz => ?_⟩
  rcases List.mem_cons.mp hz with rfl | hz
  · exact hy
  · exact hl z hz

/-- A newcomer heavier than everything before is the first maximum. -/
lemma isFirstMax_cons_of_lt (h : ∀ y ∈ log, score y < score x) : IsFirstMax score (x :: log) x :=
  ⟨[], log, rfl, h, fun _ hz => absurd hz List.not_mem_nil⟩

/-- Two logs with the same entries have first maxima of one score. -/
lemma IsFirstMax.score_eq_of_perm (h : IsFirstMax score log x) (h' : IsFirstMax score log' x')
    (hp : log.Perm log') : score x = score x' :=
  le_antisymm (h'.le (hp.subset h.mem)) (h.le (hp.symm.subset h'.mem))

end P2Pearl
