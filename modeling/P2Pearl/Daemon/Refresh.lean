import P2Pearl.Data.Coalesce
import P2Pearl.Data.Machine

/-!
`_request_stratum_refresh` and the task it spawns, in every interleaving.

* `RefreshTasks`: every task there has been, the handle `_refresh_task`, the flag `_refresh_again`,
  and a log the code does not keep.  A request may come at any of the three points where a task
  rests: before it starts, while `stratum.refresh()` awaits, and between its completion and the
  moment the task goes on.
* `Sole`: the handle is that of the only task that has not ended; `Moves`: what an event then makes
  of the phase of that task, the flag and the log.
* `Owes`: how many steps of the task it takes at most until a request is served.
* `refreshes_serve_requests`: what follows for every run.
* `coalescer_follows`, `follows_of_run`: the `Coalescer` of the production node is an abstraction of
  these tasks.
-/

namespace P2Pearl

namespace RefreshTasks

/-- Where a task rests: not started, in `stratum.refresh()`, or behind it; or it has ended. -/
inductive Phase where
  | created
  | refreshing
  | refreshed
  | ended
  deriving DecidableEq

/-- What the log records: a request, or that `stratum.refresh()` begins or completes. -/
inductive Mark where
  | requested
  | began
  | completed
  deriving DecidableEq

end RefreshTasks

open RefreshTasks in
/-- The refreshes of a pool with a stratum server. -/
structure RefreshTasks where
  /-- The tasks, oldest first. -/
  tasks : List Phase
  /-- `_refresh_task`. -/
  refreshTask : Option ℕ
  /-- `_refresh_again`. -/
  refreshAgain : Bool
  /-- `_last_job_refresh_at`. -/
  lastJobRefreshAt : ℚ
  log : List Mark

namespace RefreshTasks

/-- Nothing has been asked for. -/
def init : RefreshTasks := ⟨[], none, false, 0, []⟩

variable (R : RefreshTasks)

/-- `_refresh_task` is there and not done. -/
def pending : Bool := R.refreshTask.any fun i => R.tasks[i]? ≠ some .ended

/-- `_spawn_background` of a new task. -/
def spawn : RefreshTasks :=
  { R with tasks := R.tasks ++ [.created], refreshTask := some R.tasks.length }

/-- `_request_stratum_refresh`. -/
def requestStratumRefresh (now : ℚ) : RefreshTasks :=
  let R := { R with lastJobRefreshAt := now, log := R.log ++ [Mark.requested] }
  if R.pending then { R with refreshAgain := true } else R.spawn

/-- The head of the loop of `_run_stratum_refresh`: the flag is cleared, and `stratum.refresh()`
begins. -/
def beginRefresh (i : ℕ) : RefreshTasks :=
  { R with tasks := R.tasks.set i .refreshing, refreshAgain := false, log := R.log ++ [.began] }

/-- Its end, with the `finally`. -/
def endTask (i : ℕ) : RefreshTasks :=
  { R with tasks := R.tasks.set i .ended, refreshTask := none }

/-- What can happen: a request, a task starts, its `stratum.refresh()` returns, or it goes on. -/
inductive Event where
  | request (now : ℚ)
  | start (i : ℕ)
  | complete (i : ℕ)
  | resume (i : ℕ)

/-- The event is a step of a task. -/
def Event.ofTask : Event → Bool
  | .request _ => false
  | _ => true

/-- One event, where it can happen. -/
def step : Event → Option RefreshTasks
  | .request now => some (R.requestStratumRefresh now)
  | .start i => if R.tasks[i]? = some .created then some (R.beginRefresh i) else none
  | .complete i =>
      if R.tasks[i]? = some .refreshing then
        some { R with tasks := R.tasks.set i .refreshed, log := R.log ++ [.completed] }
      else none
  | .resume i =>
      if R.tasks[i]? = some .refreshed then
        some (if R.refreshAgain then R.beginRefresh i else R.endTask i)
      else none

variable {R} {R' : RefreshTasks} {e : Event}

/-! ### The only task -/

/-- The handle is that of a task that has not ended, and there is no other such task. -/
structure Sole (R : RefreshTasks) : Prop where
  only : ∀ i ph, R.tasks[i]? = some ph → ph ≠ .ended → R.refreshTask = some i
  live : ∀ i, R.refreshTask = some i → ∃ ph, R.tasks[i]? = some ph ∧ ph ≠ .ended

/-- The phase of the task, if there is one, the flag and the log. -/
structure View where
  phase : Option Phase
  again : Bool
  log : List Mark

/-- What there is to see of the tasks. -/
def view (R : RefreshTasks) : View :=
  ⟨R.refreshTask.bind fun i => R.tasks[i]?, R.refreshAgain, R.log⟩

/-- What an event makes of what there is to see. -/
inductive Moves : View → Event → View → Prop
  | spawn (again : Bool) (log : List Mark) (now : ℚ) :
      Moves ⟨none, again, log⟩ (.request now) ⟨some .created, again, log ++ [.requested]⟩
  | ask (ph : Phase) (again : Bool) (log : List Mark) (now : ℚ) :
      Moves ⟨some ph, again, log⟩ (.request now) ⟨some ph, true, log ++ [.requested]⟩
  | start (again : Bool) (log : List Mark) (i : ℕ) :
      Moves ⟨some .created, again, log⟩ (.start i) ⟨some .refreshing, false, log ++ [.began]⟩
  | complete (again : Bool) (log : List Mark) (i : ℕ) :
      Moves ⟨some .refreshing, again, log⟩ (.complete i)
        ⟨some .refreshed, again, log ++ [.completed]⟩
  | again (log : List Mark) (i : ℕ) :
      Moves ⟨some .refreshed, true, log⟩ (.resume i) ⟨some .refreshing, false, log ++ [.began]⟩
  | stop (log : List Mark) (i : ℕ) :
      Moves ⟨some .refreshed, false, log⟩ (.resume i) ⟨none, false, log⟩

/-- A move, where the phases are known. -/
lemma moves_of_phase {ph ph' : Option Phase} (h : R.view.phase = ph) (h' : R'.view.phase = ph')
    (hmove : Moves ⟨ph, R.refreshAgain, R.log⟩ e ⟨ph', R'.refreshAgain, R'.log⟩) :
    Moves R.view e R'.view := by
  subst h h'
  exact hmove

namespace Sole

lemma init : Sole init where
  only i ph h _ := by simp [RefreshTasks.init] at h
  live i h := by cases h

/-- A task in a phase other than the end is the one of the handle. -/
lemma view_of_get (h : Sole R) {i : ℕ} {ph : Phase} (hi : R.tasks[i]? = some ph)
    (hne : ph ≠ .ended) : R.refreshTask = some i ∧ R.view.phase = some ph := by
  have hhandle := h.only i ph hi hne
  exact ⟨hhandle, by rw [view, hhandle]; exact hi⟩

lemma pending_iff (h : Sole R) : R.pending = true ↔ R.refreshTask ≠ none := by
  rw [pending]
  cases hhandle : R.refreshTask with
  | none => simp
  | some i =>
      obtain ⟨ph, hph, hne⟩ := h.live i hhandle
      simp [hph, hne]

/-- Moving the task on to another phase. -/
lemma set (h : Sole R) {i : ℕ} {ph : Phase} (hi : R.tasks[i]? = some ph) (ph' : Phase)
    (hne : ph ≠ .ended) (hne' : ph' ≠ .ended) {refreshAgain : Bool} {lastJobRefreshAt : ℚ}
    {log : List Mark} :
    Sole ⟨R.tasks.set i ph', R.refreshTask, refreshAgain, lastJobRefreshAt, log⟩
      ∧ (view ⟨R.tasks.set i ph', R.refreshTask, refreshAgain, lastJobRefreshAt, log⟩).phase
        = some ph' := by
  obtain ⟨hhandle, -⟩ := h.view_of_get hi hne
  have hlt := (List.getElem?_eq_some_iff.mp hi).1
  have hself : (R.tasks.set i ph')[i]? = some ph' := List.getElem?_set_self hlt
  refine ⟨⟨fun j q hj hq => ?_, fun j hj => ?_⟩, by rw [view, hhandle]; exact hself⟩
  · by_cases hij : j = i
    · rw [hij]; exact hhandle
    · rw [List.getElem?_set_ne (Ne.symm hij)] at hj
      exact h.only j q hj hq
  · obtain rfl : i = j := Option.some.inj (hhandle.symm.trans hj)
    exact ⟨ph', hself, hne'⟩

/-- The task ends. -/
lemma endTask (h : Sole R) {i : ℕ} {ph : Phase} (hi : R.tasks[i]? = some ph) (hne : ph ≠ .ended) :
    Sole (R.endTask i) := by
  obtain ⟨hhandle, -⟩ := h.view_of_get hi hne
  have hlt := (List.getElem?_eq_some_iff.mp hi).1
  refine ⟨fun j q hj hq => ?_, fun j hj => by cases hj⟩
  rw [RefreshTasks.endTask] at hj
  by_cases hij : j = i
  · rw [hij, List.getElem?_set_self hlt] at hj
    exact absurd (Option.some.inj hj).symm hq
  · rw [List.getElem?_set_ne (Ne.symm hij)] at hj
    exact absurd (Option.some.inj (hhandle.symm.trans (h.only j q hj hq))).symm hij

/-- A new task, where there is none. -/
lemma spawn (h : Sole R) (hnone : R.refreshTask = none) : Sole R.spawn where
  only i ph hi hne := by
    rw [RefreshTasks.spawn] at hi ⊢
    rcases Nat.lt_trichotomy i R.tasks.length with hlt | rfl | hgt
    · rw [List.getElem?_append_left hlt] at hi
      rw [h.only i ph hi hne] at hnone
      cases hnone
    · rfl
    · rw [List.getElem?_eq_none (by simpa using hgt)] at hi
      cases hi
  live i hi := by
    cases hi
    exact ⟨.created, by simp [RefreshTasks.spawn], by simp⟩

/-- **Every event** is one of these moves, and the task stays the only one. -/
lemma step (h : Sole R) (hstep : R.step e = some R') : Sole R' ∧ Moves R.view e R'.view := by
  cases e with
  | request now =>
      cases hstep
      have hsame : Sole { R with lastJobRefreshAt := now, log := R.log ++ [Mark.requested] } :=
        ⟨h.only, h.live⟩
      rw [requestStratumRefresh]
      dsimp only
      split_ifs with hpending
      · refine ⟨⟨h.only, h.live⟩, ?_⟩
        obtain ⟨i, hi⟩ := Option.ne_none_iff_exists'.mp (hsame.pending_iff.mp hpending)
        obtain ⟨ph, hph, -⟩ := h.live i hi
        have hview : R.view.phase = some ph := by
          rw [view, show R.refreshTask = some i from hi]
          exact hph
        exact moves_of_phase hview hview (.ask _ _ _ now)
      · have hnone : R.refreshTask = none := not_not.mp (mt hsame.pending_iff.mpr hpending)
        refine ⟨hsame.spawn hnone, ?_⟩
        have hview : R.view = ⟨none, R.refreshAgain, R.log⟩ := by rw [view, hnone]; rfl
        have hview' : view (RefreshTasks.spawn
            { R with lastJobRefreshAt := now, log := R.log ++ [Mark.requested] })
            = ⟨some .created, R.refreshAgain, R.log ++ [.requested]⟩ := by
          simp [view, RefreshTasks.spawn]
        rw [hview, hview']
        exact .spawn _ _ _
  | start i =>
      rw [RefreshTasks.step] at hstep
      split_ifs at hstep with hi
      cases hstep
      obtain ⟨-, hview⟩ := h.view_of_get hi (by simp)
      obtain ⟨hsole, hview'⟩ := h.set hi .refreshing (by simp) (by simp)
      exact ⟨hsole, moves_of_phase hview hview' (.start _ _ i)⟩
  | complete i =>
      rw [RefreshTasks.step] at hstep
      split_ifs at hstep with hi
      cases hstep
      obtain ⟨-, hview⟩ := h.view_of_get hi (by simp)
      obtain ⟨hsole, hview'⟩ := h.set hi .refreshed (by simp) (by simp)
      exact ⟨hsole, moves_of_phase hview hview' (.complete _ _ i)⟩
  | resume i =>
      rw [RefreshTasks.step] at hstep
      split_ifs at hstep with hi hagain
      · cases hstep
        obtain ⟨-, hview⟩ := h.view_of_get hi (by simp)
        obtain ⟨hsole, hview'⟩ := h.set hi .refreshing (by simp) (by simp)
        exact ⟨hsole, moves_of_phase hview hview' (hagain ▸ .again _ i)⟩
      · cases hstep
        obtain ⟨-, hview⟩ := h.view_of_get hi (by simp)
        have hfalse : R.refreshAgain = false := by simpa using hagain
        exact ⟨h.endTask hi (by simp), moves_of_phase hview rfl (hfalse ▸ .stop _ i)⟩

end Sole

/-- The task is the only one in every state. -/
lemma sole_of_run {events : List Event} (hrun : Machine.run step init events = some R) : Sole R :=
  Machine.run_preserves (fun _ _ _ hstep h => (h.step hstep).1) .init hrun

/-! ### How many refreshes there are -/

/-- The refreshes still owed: one before the task starts, or where the flag is set. -/
def View.owed (v : View) : ℕ :=
  match v.phase, v.again with
  | some .created, _ => 1
  | some _, true => 1
  | _, _ => 0

/-- A refresh begins only for a request, and only when the one before it has completed. -/
structure Counted (v : View) : Prop where
  requested : v.log.count .began + v.owed ≤ v.log.count .requested
  completed : v.log.count .began
    = v.log.count .completed + if v.phase = some .refreshing then 1 else 0

lemma Counted.step {v v' : View} (h : Counted v) (hmove : Moves v e v') : Counted v' := by
  obtain ⟨hreq, hcomp⟩ := h
  cases hmove with
  | spawn again log now =>
      constructor <;> simp [View.owed] at hreq hcomp ⊢ <;> omega
  | ask ph again log now =>
      have hone : View.owed ⟨some ph, true, log ++ [.requested]⟩ ≤ 1 := by
        cases ph <;> simp [View.owed]
      constructor
      · simp only [List.count_append] at hreq ⊢
        simp
        omega
      · simpa using hcomp
  | start again log i =>
      constructor <;> simp [View.owed] at hreq hcomp ⊢ <;> omega
  | complete again log i =>
      constructor
      · cases again <;> simpa [View.owed] using hreq
      · simp at hcomp ⊢
        omega
  | again log i =>
      constructor <;> simp [View.owed] at hreq hcomp ⊢ <;> omega
  | stop log i =>
      constructor <;> simp [View.owed] at hreq hcomp ⊢ <;> omega

/-! ### When a request is served -/

/-- A move adds a mark to the log, or none. -/
lemma log_of_moves {v v' : View} (hmove : Moves v e v') : ∃ marks, v'.log = v.log ++ marks := by
  cases hmove with
  | stop => exact ⟨[], (List.append_nil _).symm⟩
  | _ => exact ⟨_, rfl⟩

/-- Since a request, a refresh has begun and has completed. -/
def Served (since : List Mark) : Prop := ∃ x y, since = x ++ .began :: y ∧ .completed ∈ y

lemma Served.append {since : List Mark} (h : Served since) (more : List Mark) :
    Served (since ++ more) := by
  obtain ⟨x, y, rfl, hy⟩ := h
  exact ⟨x, y ++ more, by simp, List.mem_append_left _ hy⟩

/-- A refresh that has begun completes. -/
lemma served_of_began {since : List Mark} (h : .began ∈ since) :
    Served (since ++ [.completed]) := by
  obtain ⟨x, y, rfl⟩ := List.append_of_mem h
  exact ⟨x, y ++ [.completed], by simp, by simp⟩

/-- What the task still has to do for a request, with the number of its steps this takes. -/
inductive Owes (since : List Mark) : View → ℕ → Prop
  /-- The refresh is on its way. -/
  | serving (again : Bool) (log : List Mark) (begun : .began ∈ since) :
      Owes since ⟨some .refreshing, again, log⟩ 1
  | unstarted (again : Bool) (log : List Mark) : Owes since ⟨some .created, again, log⟩ 2
  | resuming (log : List Mark) : Owes since ⟨some .refreshed, true, log⟩ 2
  | asked (log : List Mark) : Owes since ⟨some .refreshing, true, log⟩ 3

/-- **A move** serves a request or leaves it owed; one of the task brings it closer. -/
lemma Owes.step {since : List Mark} {v v' : View} {n : ℕ} (h : Owes since v n)
    (hmove : Moves v e v') : ∃ marks, v'.log = v.log ++ marks
      ∧ (Served (since ++ marks)
        ∨ ∃ k, Owes (since ++ marks) v' k ∧ k + (if e.ofTask then 1 else 0) ≤ n) := by
  cases hmove with
  | spawn => cases h
  | ask ph again log now =>
      refine ⟨[.requested], rfl, Or.inr ?_⟩
      cases h with
      | serving again log begun =>
          exact ⟨1, .serving _ _ (List.mem_append_left _ begun), le_rfl⟩
      | unstarted => exact ⟨2, .unstarted _ _, le_rfl⟩
      | resuming => exact ⟨2, .resuming _, le_rfl⟩
      | asked => exact ⟨3, .asked _, le_rfl⟩
  | start again log i =>
      cases h
      exact ⟨[.began], rfl, Or.inr ⟨1, .serving _ _ (by simp), le_rfl⟩⟩
  | complete again log i =>
      refine ⟨[.completed], rfl, ?_⟩
      cases h with
      | serving again log begun => exact Or.inl (served_of_began begun)
      | asked => exact Or.inr ⟨2, .resuming _, le_rfl⟩
  | again log i =>
      cases h
      exact ⟨[.began], rfl, Or.inr ⟨1, .serving _ _ (by simp), le_rfl⟩⟩
  | stop => cases h

/-- A new request is owed three steps at most. -/
lemma owes_request {v v' : View} {now : ℚ} (hmove : Moves v (.request now) v')
    (hphase : v.phase ≠ some .ended) : v'.log = v.log ++ [.requested]
      ∧ ∃ n ≤ 3, Owes [] v' n := by
  cases hmove with
  | spawn => exact ⟨rfl, 2, by norm_num, .unstarted _ _⟩
  | ask ph again log now =>
      refine ⟨rfl, ?_⟩
      cases ph with
      | created => exact ⟨2, by norm_num, .unstarted _ _⟩
      | refreshing => exact ⟨3, le_rfl, .asked _⟩
      | refreshed => exact ⟨2, by norm_num, .resuming _⟩
      | ended => exact absurd rfl hphase

/-- The phase to see is not the end. -/
lemma Sole.phase_ne (h : Sole R) : R.view.phase ≠ some .ended := by
  intro hended
  obtain ⟨i, hi, hphase⟩ := Option.bind_eq_some_iff.mp hended
  obtain ⟨ph, hph, hne⟩ := h.live i hi
  exact hne (Option.some.inj (hph.symm.trans hphase))

/-! ### Runs -/

/-- The log only grows. -/
lemma log_of_run {events : List Event} (h : Sole R) (hrun : Machine.run step R events = some R') :
    ∃ marks, R'.log = R.log ++ marks := by
  induction events generalizing R with
  | nil => cases hrun; exact ⟨[], (List.append_nil _).symm⟩
  | cons e events ih =>
      obtain ⟨R₁, hstep, hrest⟩ := Machine.run_cons_eq_some_iff.mp hrun
      obtain ⟨h₁, hmove⟩ := h.step hstep
      obtain ⟨first, hfirst⟩ := log_of_moves hmove
      obtain ⟨marks, hmarks⟩ := ih h₁ hrest
      refine ⟨first ++ marks, ?_⟩
      rw [hmarks, show R₁.log = R.log ++ first from hfirst, List.append_assoc]

/-- **A run** serves what is owed, or the task has come closer to it by as many steps as it took. -/
lemma Owes.run {events : List Event} {since : List Mark} {n : ℕ} (howes : Owes since R.view n)
    (h : Sole R) (hrun : Machine.run RefreshTasks.step R events = some R') :
    ∃ marks, R'.log = R.log ++ marks ∧ (Served (since ++ marks)
      ∨ ∃ k, Owes (since ++ marks) R'.view k ∧ k + events.countP Event.ofTask ≤ n) := by
  induction events generalizing R since n with
  | nil =>
      cases hrun
      refine ⟨[], (List.append_nil _).symm, Or.inr ⟨n, ?_, by simp⟩⟩
      rwa [List.append_nil]
  | cons e events ih =>
      obtain ⟨R₁, hstep, hrest⟩ := Machine.run_cons_eq_some_iff.mp hrun
      obtain ⟨h₁, hmove⟩ := h.step hstep
      obtain ⟨first, hfirst, hnext⟩ := howes.step hmove
      have hlog : R₁.log = R.log ++ first := hfirst
      rcases hnext with hserved | ⟨k, howes', hk⟩
      · obtain ⟨marks, hmarks⟩ := log_of_run h₁ hrest
        refine ⟨first ++ marks, by rw [hmarks, hlog, List.append_assoc], Or.inl ?_⟩
        rw [← List.append_assoc]
        exact hserved.append marks
      · obtain ⟨marks, hmarks, hend⟩ := ih howes' h₁ hrest
        refine ⟨first ++ marks, by rw [hmarks, hlog, List.append_assoc], ?_⟩
        rw [← List.append_assoc]
        refine hend.imp_right fun ⟨j, howes'', hj⟩ => ⟨j, howes'', ?_⟩
        rw [List.countP_cons]
        omega

/-- A request of a run is served, or the task is on its way to it. -/
lemma request_of_run {rest : List Event} {now : ℚ} {M : RefreshTasks} (h : Sole M)
    (hrun : Machine.run step M (.request now :: rest) = some R) :
    ∃ since, R.log = M.log ++ .requested :: since ∧ (Served since
      ∨ ∃ k, Owes since R.view k ∧ k + rest.countP Event.ofTask ≤ 3) := by
  obtain ⟨M', hstep, hrest⟩ := Machine.run_cons_eq_some_iff.mp hrun
  obtain ⟨h', hmove⟩ := h.step hstep
  obtain ⟨hlog, n, hn, howes⟩ := owes_request hmove h.phase_ne
  obtain ⟨since, hsince, hend⟩ := howes.run h' hrest
  refine ⟨since, ?_, hend.imp_right fun ⟨k, howes', hk⟩ => ⟨k, howes', hk.trans hn⟩⟩
  rw [hsince, show M'.log = M.log ++ [.requested] from hlog, List.append_assoc]
  rfl

lemma Owes.pos {since : List Mark} {v : View} {n : ℕ} (h : Owes since v n) : 0 < n := by
  cases h <;> norm_num

/-- What is owed is owed by a task that has not ended. -/
lemma Owes.live {since : List Mark} {n : ℕ} (h : Owes since R.view n) :
    ∃ ph ∈ R.tasks, ph ≠ .ended := by
  have hphase : ∀ {v}, Owes since v n → ∃ ph, v.phase = some ph ∧ ph ≠ .ended := by
    rintro _ (_ | _ | _ | _)
    · exact ⟨.refreshing, rfl, by simp⟩
    · exact ⟨.created, rfl, by simp⟩
    · exact ⟨.refreshed, rfl, by simp⟩
    · exact ⟨.refreshing, rfl, by simp⟩
  obtain ⟨ph, hph, hne⟩ := hphase h
  obtain ⟨i, -, hi⟩ := Option.bind_eq_some_iff.mp hph
  exact ⟨ph, List.mem_of_getElem? hi, hne⟩

/-- A task that has not ended can take a step. -/
lemma exists_step {ph : Phase} (hmem : ph ∈ R.tasks) (hne : ph ≠ .ended) :
    ∃ e R', e.ofTask = true ∧ R.step e = some R' := by
  obtain ⟨i, hi⟩ := List.mem_iff_getElem?.mp hmem
  cases ph with
  | created => exact ⟨.start i, _, rfl, if_pos hi⟩
  | refreshing => exact ⟨.complete i, _, rfl, if_pos hi⟩
  | refreshed => exact ⟨.resume i, _, rfl, if_pos hi⟩
  | ended => exact absurd rfl hne

/-- A refresh begins only for a request, and only when the one before it has completed. -/
lemma counted_of_run {events : List Event} (hrun : Machine.run step init events = some R) :
    Counted R.view := by
  refine (Machine.run_preserves (I := fun R => Sole R ∧ Counted R.view) ?_
    ⟨.init, by constructor <;> rfl⟩ hrun).2
  intro R e R' hstep h
  obtain ⟨h', hmove⟩ := h.1.step hstep
  exact ⟨h', h.2.step hmove⟩

/-- **No request is lost, and refreshes do not overlap.**  In every interleaving at most one
`stratum.refresh()` is in progress, and there are no more of them than requests.  A request is
followed by one that begins after it and completes: whatever else happens, within three steps of
the task, and before the task ends.  Until then the task can take a step. -/
theorem refreshes_serve_requests (events : List Event) {R : RefreshTasks}
    (hrun : Machine.run step init events = some R) :
    (∀ i j : ℕ, R.tasks[i]? = some Phase.refreshing → R.tasks[j]? = some Phase.refreshing → i = j)
      ∧ R.log.count .completed ≤ R.log.count .began
      ∧ R.log.count .began ≤ R.log.count .completed + 1
      ∧ R.log.count .began ≤ R.log.count .requested
      ∧ (∀ past now rest M, events = past ++ .request now :: rest →
          Machine.run step init past = some M →
          ∃ since, R.log = M.log ++ .requested :: since
            ∧ (3 ≤ rest.countP Event.ofTask ∨ (∀ ph ∈ R.tasks, ph = .ended) → Served since))
      ∧ ((∃ ph ∈ R.tasks, ph ≠ .ended) → ∃ e R', e.ofTask = true ∧ R.step e = some R') := by
  have hsole := sole_of_run hrun
  obtain ⟨hrequested, hcompleted⟩ := counted_of_run hrun
  have hone : (if R.view.phase = some .refreshing then 1 else 0) ≤ 1 := by split_ifs <;> norm_num
  change R.log.count .began + _ ≤ R.log.count .requested at hrequested
  change R.log.count .began = R.log.count .completed + _ at hcompleted
  refine ⟨fun i j hi hj => ?_, by omega, by omega, by omega, ?_, fun ⟨ph, hmem, hne⟩ =>
    exists_step hmem hne⟩
  · exact Option.some.inj ((hsole.only i _ hi (by simp)).symm.trans (hsole.only j _ hj (by simp)))
  · rintro past now rest M rfl hpast
    obtain ⟨M', hM', hrest⟩ := Machine.run_append_eq_some_iff.mp hrun
    obtain rfl := Option.some.inj (hpast.symm.trans hM')
    obtain ⟨since, hlog, hend⟩ := request_of_run (sole_of_run hpast) hrest
    refine ⟨since, hlog, fun hdone => hend.resolve_right ?_⟩
    rintro ⟨k, howes, hk⟩
    rcases hdone with hsteps | hended
    · have := howes.pos
      omega
    · obtain ⟨ph, hmem, hne⟩ := howes.live
      exact hne (hended ph hmem)

/-- Two requests, the second while the first is served. -/
def twoRequests : List Event :=
  [.request 0, .start 0, .request 1, .complete 0, .resume 0, .complete 0, .resume 0]

/-- The second request is served after the refresh that the first one started. -/
theorem refreshes_serve_requests_two : ∃ R since, Machine.run step init twoRequests = some R
    ∧ R.log = [.requested, .began] ++ .requested :: since ∧ Served since := by
  have hrun : Machine.run step init twoRequests = some ⟨[.ended], none, false, 1,
      [.requested, .began, .requested, .completed, .began, .completed]⟩ := rfl
  obtain ⟨since, hlog, hserved⟩ := (refreshes_serve_requests twoRequests hrun).2.2.2.2.1
    [.request 0, .start 0] 1 [.complete 0, .resume 0, .complete 0, .resume 0] _ rfl rfl
  exact ⟨_, since, hrun, hlog, hserved (Or.inl (by decide))⟩

/-! ### The coalescer of the production node -/

section Coalescer

variable {α : Type}

/-- The coalescer stands where the task does; when `stratum.refresh()` has completed, the items of
its round have been taken up. -/
inductive Follows : View → Coalescer α → Prop
  | idle (again : Bool) (log : List Mark) (n : ℕ) (requests : n = log.count .requested) :
      Follows ⟨none, again, log⟩ ⟨none, again, n⟩
  | created (again : Bool) (log : List Mark) (n : ℕ) (requests : n = log.count .requested) :
      Follows ⟨some .created, again, log⟩ ⟨some .created, again, n⟩
  | refreshing (items : List α) (again : Bool) (log : List Mark) (n : ℕ)
      (requests : n = log.count .requested) :
      Follows ⟨some .refreshing, again, log⟩ ⟨some (.round items), again, n⟩
  | refreshed (again : Bool) (log : List Mark) (n : ℕ) (requests : n = log.count .requested) :
      Follows ⟨some .refreshed, again, log⟩ ⟨some (.round []), again, n⟩

/-- One step of the coalescer, or a few, for an event. -/
def Matches (items : List α) (T T' : Coalescer α) : Event → Prop
  | .request _ => T' = T.request
  | .start _ => T.begin items = some T'
  | .complete _ => Relation.ReflTransGen (fun T T' => ∃ i a, T.take i = some (a, T')) T T'
  | .resume _ => T.finish items = some T'

/-- A round can be taken up to its end. -/
lemma take_all (T : Coalescer α) (items : List α) :
    Relation.ReflTransGen (fun T T' => ∃ i a, T.take i = some (a, T'))
      { T with task := some (.round items) } { T with task := some (.round []) } := by
  induction items with
  | nil => exact .refl
  | cons a items ih => exact .head ⟨0, a, rfl⟩ ih

/-- **The coalescer follows** every event of the tasks. -/
lemma coalescer_follows {v v' : View} {T : Coalescer α} (h : Follows v T) (hmove : Moves v e v')
    (items : List α) : ∃ T', Follows v' T' ∧ Matches items T T' e := by
  cases hmove with
  | spawn again log now =>
      cases h with
      | idle again log n requests => exact ⟨_, .created _ _ (n + 1) (by simp [requests]), rfl⟩
  | ask ph again log now =>
      cases h with
      | created again log n requests => exact ⟨_, .created _ _ (n + 1) (by simp [requests]), rfl⟩
      | refreshing left again log n requests =>
          exact ⟨_, .refreshing left _ _ (n + 1) (by simp [requests]), rfl⟩
      | refreshed again log n requests =>
          exact ⟨_, .refreshed _ _ (n + 1) (by simp [requests]), rfl⟩
  | start again log i =>
      cases h with
      | created again log n requests =>
          exact ⟨_, .refreshing items _ _ n (by simp [requests]), rfl⟩
  | complete again log i =>
      cases h with
      | refreshing left again log n requests =>
          exact ⟨_, .refreshed _ _ n (by simp [requests]), take_all ⟨none, again, n⟩ left⟩
  | again log i =>
      cases h with
      | refreshed again log n requests =>
          exact ⟨_, .refreshing items _ _ n (by simp [requests]), rfl⟩
  | stop log i =>
      cases h with
      | refreshed again log n requests => exact ⟨_, .idle _ _ n requests, rfl⟩

/-- **Every run** of the tasks is one of the coalescer. -/
lemma follows_of_run {events : List Event} (hrun : Machine.run step init events = some R)
    (items : List α) : ∃ T, Follows R.view T
      ∧ Relation.ReflTransGen (fun T T' => ∃ e, Matches items T T' e) Coalescer.init T := by
  refine (Machine.run_preserves (I := fun R => Sole R ∧ ∃ T, Follows R.view T
    ∧ Relation.ReflTransGen (fun T T' => ∃ e, Matches items T T' e) Coalescer.init T) ?_
    ⟨.init, .init, .idle _ _ _ rfl, .refl⟩ hrun).2
  rintro R e R' hstep ⟨h, T, hfollows, hreach⟩
  obtain ⟨h', hmove⟩ := h.step hstep
  obtain ⟨T', hfollows', hmatches⟩ := coalescer_follows hfollows hmove items
  exact ⟨h', T', hfollows', hreach.tail ⟨e, hmatches⟩⟩

end Coalescer

end RefreshTasks

end P2Pearl
