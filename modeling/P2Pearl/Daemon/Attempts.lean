import P2Pearl.Daemon.Assembler

/-!
For which parents the prover was started.

* `Assembler.Recorded`: the prover was started for every assembled parent.
* `Assembler.Made`: the calls that are in line, hold the lock or have started the prover; each was
  made by an event (`Made.of_step`).
* `Assembler.Underway`: a call for a parent waits for the lock or its pre hook, or the prover was
  started for the parent; it stays so unless the pre hook raises (`Underway.step`).
-/

namespace P2Pearl

variable {Ctx : Type}

namespace Assembler

variable {hooks : AssembleHooks} {A A' : Assembler Ctx} {e : Event Ctx}

/-! ### Attempts -/

/-- The prover was started for the parent. -/
def Started (A : Assembler Ctx) (p : Hash32) : Prop := ∃ a, .assembleBlock a ∈ A.log ∧ a.parent = p

lemma Started.mono {p : Hash32} (h : A.Started p) (hlog : A.log ⊆ A'.log) : A'.Started p := by
  obtain ⟨a, ha, hp⟩ := h
  exact ⟨a, hlog ha, hp⟩

/-- The prover was started for every assembled parent, and for the parent of the call that holds the
lock once its pre hook is done. -/
structure Recorded (A : Assembler Ctx) : Prop where
  assembled : ∀ p ∈ A.assembledParents, A.Started p
  held : ∀ a phase, A.holder = some (a, phase) → phase ≠ .preAssemble → A.Started a.parent

namespace Recorded

lemma init : (init : Assembler Ctx).Recorded :=
  ⟨fun _ h => absurd h (Finset.notMem_empty _), fun _ _ h => by cases h⟩

lemma release (h : A.Recorded) : A.release.Recorded := ⟨h.assembled, fun _ _ hh => by cases hh⟩

lemma enter (h : A.Recorded) {a : Assembly Ctx} (hstarted : A.Started a.parent) (phase : Phase)
    (action : Option (Action Ctx)) : (A.enter a phase action).Recorded := by
  have hlog : A.log ⊆ (A.enter a phase action).log := List.subset_append_right _ _
  refine ⟨fun p hp => (h.assembled p hp).mono hlog, fun b phase' hb _ => ?_⟩
  cases hb
  exact hstarted.mono hlog

lemma assembleBlock (h : A.Recorded) (a : Assembly Ctx) : (A.assembleBlock a).Recorded := by
  have hlog : A.log ⊆ (A.assembleBlock a).log := List.subset_cons_self _ _
  refine ⟨fun p hp => (h.assembled p hp).mono hlog, fun b phase hb _ => ?_⟩
  cases hb
  exact ⟨a, List.mem_cons_self, rfl⟩

lemma submitBlock (h : A.Recorded) {a : Assembly Ctx} (hstarted : A.Started a.parent)
    (block : Except PyError PyStr) : (A.submitBlock a block).Recorded := by
  cases block with
  | error error => exact h.release
  | ok block => exact h.enter hstarted _ _

/-- A submission marks a parent the prover was started for. -/
lemma submitted (h : A.Recorded) {a : Assembly Ctx} (hstarted : A.Started a.parent)
    (outcome : Except PyError (Option String)) : (A.submitted hooks a outcome).Recorded := by
  have hlog : A.log ⊆ .submitBlock a.parent outcome :: A.log := List.subset_cons_self _ _
  cases outcome with
  | error error => exact ⟨fun p hp => (h.assembled p hp).mono hlog, fun _ _ hh => by cases hh⟩
  | ok result =>
      have hmarked : ∀ p ∈ insert a.parent A.assembledParents, A.Started p := by
        intro p hp
        rcases Finset.mem_insert.mp hp with rfl | hp
        · exact hstarted
        · exact h.assembled p hp
      rw [Assembler.submitted]
      simp only
      split_ifs
      · have hlog' := List.subset_cons_of_subset (Action.broadcastBlock a.parent) hlog
        refine ⟨fun p hp => (hmarked p hp).mono hlog', fun b phase hb _ => ?_⟩
        cases hb
        exact hstarted.mono hlog'
      · exact ⟨fun p hp => (hmarked p hp).mono hlog, fun _ _ hh => by cases hh⟩

/-- Every event preserves the record. -/
lemma step (hstep : Assembler.step hooks A e = some A') (h : A.Recorded) : A'.Recorded := by
  cases effect_of_step hstep with
  | setTemplate template =>
      rw [setTemplate]
      split_ifs
      · exact ⟨fun _ hp => absurd hp (Finset.notMem_empty _),
          fun a phase hh hphase => (h.held a phase hh hphase).mono (List.subset_cons_self _ _)⟩
      · exact ⟨h.assembled, h.held⟩
  | call a => exact ⟨h.assembled, h.held⟩
  | acquire a rest free first =>
      have hrest : Recorded { A with waiting := rest } := ⟨h.assembled, h.held⟩
      rw [locked]
      split_ifs
      · exact hrest
      · refine ⟨fun p hp => (h.assembled p hp).mono (List.subset_cons_self _ _),
          fun b phase hb hphase => ?_⟩
        cases hb
        exact absurd rfl hphase
      · exact hrest.assembleBlock a
  | preAssembled a held u => exact h.assembleBlock a
  | preRaised a held error => exact h.release
  | assembled a held block =>
      have hstarted := h.held a _ held (by simp)
      rw [Assembler.assembled]
      split_ifs
      · exact h.enter hstarted _ _
      · exact h.submitBlock hstarted block
  | postAssembled a block held u => exact h.submitBlock (h.held a _ held (by simp)) block
  | postRaised a block held error => exact h.release
  | submitted a block held outcome => exact h.submitted (h.held a _ held (by simp)) outcome
  | broadcasted a held result => exact h.release

end Recorded

/-- The call is in line, holds the lock, or the prover was started for it. -/
inductive Made (A : Assembler Ctx) (a : Assembly Ctx) : Prop
  | waiting (mem : a ∈ A.waiting)
  | held (phase : Phase) (holder : A.holder = some (a, phase))
  | started (log : .assembleBlock a ∈ A.log)

namespace Made

variable {a b : Assembly Ctx}

lemma of_release (h : A.release.Made a) : A.Made a := by
  cases h with
  | waiting mem => exact .waiting mem
  | held phase holder => cases holder
  | started log => exact .started log

/-- A call that enters a phase starts no prover but its own. -/
lemma of_enter {phase : Phase} {action : Option (Action Ctx)}
    (haction : ∀ c, action = some (.assembleBlock c) → c = b)
    (h : (A.enter b phase action).Made a) : A.Made a ∨ a = b := by
  cases h with
  | waiting mem => exact Or.inl (.waiting mem)
  | held phase holder => cases holder; exact Or.inr rfl
  | started log =>
      rcases List.mem_append.mp log with log | log
      · exact Or.inr (haction a (Option.mem_toList.mp log))
      · exact Or.inl (.started log)

lemma of_assembleBlock (h : (A.assembleBlock b).Made a) : A.Made a ∨ a = b :=
  of_enter (by rintro c ⟨⟩; rfl) h

lemma of_locked (h : (locked hooks A b).Made a) : A.Made a ∨ a = b := by
  rw [locked] at h
  split_ifs at h
  · exact Or.inl h
  · exact of_enter (by simp) h
  · exact of_assembleBlock h

lemma of_submitBlock {block : Except PyError PyStr} (h : (A.submitBlock b block).Made a) :
    A.Made a ∨ a = b := by
  cases block with
  | error error => exact Or.inl h.of_release
  | ok block => exact of_enter (by simp) h

lemma of_assembled {block : Except PyError PyStr} (h : (A.assembled hooks b block).Made a) :
    A.Made a ∨ a = b := by
  rw [assembled] at h
  split_ifs at h
  · exact of_enter (by simp) h
  · exact of_submitBlock h

lemma of_submitted {outcome : Except PyError (Option String)}
    (h : (A.submitted hooks b outcome).Made a) : A.Made a ∨ a = b := by
  have hlogged : ∀ parents, Made { A with
      assembledParents := parents
      log := .submitBlock b.parent outcome :: A.log } a → A.Made a := by
    intro parents h
    cases h with
    | waiting mem => exact .waiting mem
    | held phase holder => exact .held phase holder
    | started log => exact .started ((List.mem_cons.mp log).resolve_left (by simp))
  cases outcome with
  | error error => exact Or.inl (hlogged _ h.of_release)
  | ok result =>
      rw [submitted] at h
      simp only at h
      split_ifs at h
      · exact (of_enter (by simp) h).imp_left (hlogged _)
      · exact Or.inl (hlogged _ h.of_release)

/-- Every call was made by an event. -/
lemma of_step (hstep : Assembler.step hooks A e = some A') (h : A'.Made a) :
    A.Made a ∨ e = .call a := by
  have hheld : ∀ {b phase}, A.holder = some (b, phase) → A.Made a ∨ a = b →
      A.Made a ∨ e = .call a := by
    rintro b phase held (h | rfl)
    · exact Or.inl h
    · exact Or.inl (.held phase held)
  cases effect_of_step hstep with
  | setTemplate template =>
      refine Or.inl ?_
      rw [setTemplate] at h
      split_ifs at h
      all_goals
        cases h with
        | waiting mem => exact .waiting mem
        | held phase holder => exact .held phase holder
        | started log => exact .started (by simpa using log)
  | call b =>
      cases h with
      | waiting mem =>
          rcases List.mem_append.mp mem with mem | mem
          · exact Or.inl (.waiting mem)
          · rw [List.mem_singleton.mp mem]; exact Or.inr rfl
      | held phase holder => exact Or.inl (.held phase holder)
      | started log => exact Or.inl (.started log)
  | acquire b rest free first =>
      refine Or.inl ?_
      rcases of_locked h with h | rfl
      · cases h with
        | waiting mem => exact .waiting (first ▸ List.mem_cons_of_mem _ mem)
        | held phase holder => exact .held phase holder
        | started log => exact .started log
      · exact .waiting (first ▸ List.mem_cons_self)
  | preAssembled b held u => exact hheld held (of_assembleBlock h)
  | preRaised b held error => exact Or.inl h.of_release
  | assembled b held block => exact hheld held (of_assembled h)
  | postAssembled b block held u => exact hheld held (of_submitBlock h)
  | postRaised b block held error => exact Or.inl h.of_release
  | submitted b block held outcome => exact hheld held (of_submitted h)
  | broadcasted b held result => exact Or.inl h.of_release

end Made

/-- A call for the parent waits for the lock or the pre hook, or the prover was started for it. -/
inductive Underway (A : Assembler Ctx) (p : Hash32) : Prop
  | waiting (a : Assembly Ctx) (mem : a ∈ A.waiting) (parent : a.parent = p)
  | hooked (a : Assembly Ctx) (held : A.holder = some (a, .preAssemble)) (parent : a.parent = p)
  | attempted (started : A.Started p)

lemma Underway.call {p : Hash32} (h : A.Underway p) (a : Assembly Ctx) : (A.call a).Underway p := by
  cases h with
  | waiting b mem parent => exact .waiting b (List.mem_append_left _ mem) parent
  | hooked b held parent => exact .hooked b held parent
  | attempted started => exact .attempted started

/-- A call in line stays there until it takes the lock. -/
lemma waiting_of_step {b : Assembly Ctx} (hstep : Assembler.step hooks A e = some A')
    (mem : b ∈ A.waiting) :
    b ∈ A'.waiting ∨ ∃ rest, A' = locked hooks { A with waiting := rest } b := by
  cases effect_of_step hstep with
  | setTemplate template =>
      refine Or.inl ?_
      rw [setTemplate]
      split_ifs <;> exact mem
  | call a => exact Or.inl (List.mem_append_left _ mem)
  | acquire a rest free first =>
      rw [first] at mem
      rcases List.mem_cons.mp mem with rfl | mem
      · exact Or.inr ⟨rest, rfl⟩
      · refine Or.inl ?_
        rw [locked]
        split_ifs <;> exact mem
  | preAssembled a held u => exact Or.inl mem
  | preRaised a held error => exact Or.inl mem
  | assembled a held block =>
      refine Or.inl ?_
      rw [assembled]
      split_ifs
      · exact mem
      · cases block <;> exact mem
  | postAssembled a block held u => cases block <;> exact Or.inl mem
  | postRaised a block held error => exact Or.inl mem
  | submitted a block held outcome =>
      refine Or.inl ?_
      cases outcome with
      | error error => exact mem
      | ok result =>
          rw [submitted]
          simp only
          split_ifs <;> exact mem
  | broadcasted a held result => exact Or.inl mem

/-- A call that waits for its pre hook does so until the hook is done. -/
lemma hooked_of_step {b : Assembly Ctx} (hstep : Assembler.step hooks A e = some A')
    (held : A.holder = some (b, .preAssemble)) :
    A'.holder = some (b, .preAssemble) ∨ A' = A.assembleBlock b
      ∨ ∃ error, e = .preAssembled (.error error) := by
  cases effect_of_step hstep with
  | setTemplate template =>
      refine Or.inl ?_
      rw [setTemplate]
      split_ifs <;> exact held
  | call a => exact Or.inl held
  | acquire a rest free first => rw [held] at free; cases free
  | preAssembled a held' u =>
      cases held.symm.trans held'
      exact Or.inr (Or.inl rfl)
  | preRaised a held' error => exact Or.inr (Or.inr ⟨error, rfl⟩)
  | assembled a held' block => cases held.symm.trans held'
  | postAssembled a block held' u => cases held.symm.trans held'
  | postRaised a block held' error => cases held.symm.trans held'
  | submitted a block held' outcome => cases held.symm.trans held'
  | broadcasted a held' result => cases held.symm.trans held'

/-- What is under way stays so, unless its pre hook raises. -/
lemma Underway.step {p : Hash32} (hrec : A.Recorded) (hstep : Assembler.step hooks A e = some A')
    (hraise : ∀ a error, e = .preAssembled (.error error) → A.holder = some (a, .preAssemble) →
      a.parent ≠ p)
    (h : A.Underway p) : A'.Underway p := by
  cases h with
  | attempted started => exact .attempted (started.mono (log_subset hstep))
  | waiting b mem parent =>
      rcases waiting_of_step hstep mem with mem | ⟨rest, rfl⟩
      · exact .waiting b mem parent
      · -- the call takes the lock
        rw [locked]
        split_ifs with hdone hpre
        · exact .attempted (hrec.assembled _ (parent ▸ hdone))
        · exact .hooked b rfl parent
        · exact .attempted ⟨b, List.mem_cons_self, parent⟩
  | hooked b held parent =>
      rcases hooked_of_step hstep held with held' | rfl | ⟨error, he⟩
      · exact .hooked b held' parent
      · exact .attempted ⟨b, List.mem_cons_self, parent⟩
      · exact absurd parent (hraise b error he held)

end Assembler

end P2Pearl
