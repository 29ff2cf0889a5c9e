import P2Pearl.Chain.NodeRpc
import P2Pearl.Daemon.Assembler

/-!
Whether a rejected block blocks the next one.

* `Assembler.Sound`: a parent is assembled exactly where a submission for it has returned since the
  last clear, and the call that holds the lock has not submitted yet.
* `assembled_accepted_iff`: so a parent is only assembled by an accepted block exactly in the runs
  in which no submission returns a reason.
* `rejected_assembled`: a run in which one does.
-/

namespace P2Pearl

variable {Ctx : Type}

namespace Assembler

variable {hooks : AssembleHooks} {A A' : Assembler Ctx} {e : Event Ctx}

/-! ### The marks and the log -/

/-- The part of a log after the last clear. -/
def sinceClear : List (Action Ctx) → List (Action Ctx)
  | [] => []
  | .clear :: _ => []
  | action :: log => action :: sinceClear log

lemma sinceClear_cons {action : Action Ctx} (h : action ≠ .clear) (log : List (Action Ctx)) :
    sinceClear (action :: log) = action :: sinceClear log := by
  cases action with
  | clear => exact absurd rfl h
  | _ => rfl

lemma sinceClear_subset (log : List (Action Ctx)) : sinceClear log ⊆ log := by
  induction log with
  | nil => exact List.Subset.refl _
  | cons action log ih =>
      by_cases h : action = .clear
      · rw [h]; exact List.nil_subset _
      · rw [sinceClear_cons h]; exact List.cons_subset_cons _ ih

/-- A parent is assembled exactly where a submission for it has returned since the last clear, and
the call that holds the lock has not submitted before it broadcasts. -/
structure Sound (A : Assembler Ctx) : Prop where
  marked : ∀ p, p ∈ A.assembledParents
    ↔ ∃ result, .submitBlock p (.ok result) ∈ sinceClear A.log
  fresh : ∀ a phase, A.holder = some (a, phase) → phase ≠ .broadcastBlock →
    a.parent ∉ A.assembledParents

/-- An action that neither clears nor marks. -/
def Action.Quiet (action : Action Ctx) : Prop :=
  action ≠ .clear ∧ ∀ p result, action ≠ .submitBlock p (.ok result)

namespace Sound

lemma init : (init : Assembler Ctx).Sound :=
  ⟨fun p => by simp [Assembler.init, sinceClear], fun _ _ h => by cases h⟩

/-- Quiet actions leave the marks where they are. -/
lemma marked_quiet (h : A.Sound) {log : List (Action Ctx)} {action : Option (Action Ctx)}
    (hlog : log = action.toList ++ A.log) (hquiet : ∀ x ∈ action, Action.Quiet x) (p : Hash32) :
    p ∈ A.assembledParents ↔ ∃ result, .submitBlock p (.ok result) ∈ sinceClear log := by
  rw [h.marked p, hlog]
  cases action with
  | none => rfl
  | some x =>
      obtain ⟨hclear, hmark⟩ := hquiet x rfl
      simp only [Option.toList_some, List.singleton_append, sinceClear_cons hclear, List.mem_cons]
      exact exists_congr fun result => ⟨Or.inr, fun h => h.resolve_left (hmark p result).symm⟩

lemma release (h : A.Sound) : A.release.Sound := ⟨h.marked, fun _ _ hh => by cases hh⟩

lemma waiting (h : A.Sound) (calls : List (Assembly Ctx)) :
    Sound { A with waiting := calls } := ⟨h.marked, h.fresh⟩

lemma enter (h : A.Sound) {a : Assembly Ctx} (hfresh : a.parent ∉ A.assembledParents)
    (phase : Phase) {action : Option (Action Ctx)} (hquiet : ∀ x ∈ action, Action.Quiet x) :
    (A.enter a phase action).Sound := by
  refine ⟨h.marked_quiet rfl hquiet, fun b phase' hb _ => ?_⟩
  cases hb
  exact hfresh

lemma setTemplate (h : A.Sound) (template : ParentTemplate) : (A.setTemplate template).Sound := by
  rw [Assembler.setTemplate]
  split_ifs
  · exact ⟨fun p => by simp [sinceClear], fun _ _ _ _ => Finset.notMem_empty _⟩
  · exact ⟨h.marked, h.fresh⟩

lemma assembleBlock (h : A.Sound) {a : Assembly Ctx} (hfresh : a.parent ∉ A.assembledParents) :
    (A.assembleBlock a).Sound := h.enter hfresh _ (by rintro x ⟨⟩; exact ⟨by simp, by simp⟩)

lemma locked (h : A.Sound) (a : Assembly Ctx) : (locked hooks A a).Sound := by
  rw [Assembler.locked]
  split_ifs with hdone hpre
  · exact h
  · exact h.enter hdone _ (by rintro x ⟨⟩; exact ⟨by simp, by simp⟩)
  · exact h.assembleBlock hdone

lemma submitBlock (h : A.Sound) {a : Assembly Ctx} (hfresh : a.parent ∉ A.assembledParents)
    (block : Except PyError PyStr) : (A.submitBlock a block).Sound := by
  cases block with
  | error e => exact h.release
  | ok block => exact h.enter hfresh _ (by simp)

lemma assembled (h : A.Sound) {a : Assembly Ctx} (hfresh : a.parent ∉ A.assembledParents)
    (block : Except PyError PyStr) : (A.assembled hooks a block).Sound := by
  rw [Assembler.assembled]
  split_ifs
  · exact h.enter hfresh _ (by rintro x ⟨⟩; exact ⟨by simp, by simp⟩)
  · exact h.submitBlock hfresh block

/-- A submission that raises leaves the marks, one that returns adds one. -/
lemma submitted (h : A.Sound) (a : Assembly Ctx) (outcome : Except PyError (Option String)) :
    (A.submitted hooks a outcome).Sound := by
  cases outcome with
  | error e =>
      have hquiet : ∀ x : Action Ctx, x ∈ some (.submitBlock a.parent (.error e)) →
          Action.Quiet x := by
        rintro x ⟨⟩; exact ⟨by simp, by simp⟩
      exact ⟨h.marked_quiet rfl hquiet, fun _ _ hh => by cases hh⟩
  | ok result =>
      have hmarked : ∀ p, p ∈ insert a.parent A.assembledParents
          ↔ ∃ r, .submitBlock p (.ok r)
            ∈ sinceClear (.submitBlock a.parent (.ok result) :: A.log) := by
        intro p
        rw [Finset.mem_insert, h.marked p, sinceClear_cons (by simp)]
        simp only [List.mem_cons, Action.submitBlock.injEq, Except.ok.injEq]
        constructor
        · rintro (hp | ⟨r, hr⟩)
          · exact ⟨result, Or.inl ⟨hp, rfl⟩⟩
          · exact ⟨r, Or.inr hr⟩
        · rintro ⟨r, ⟨hp, -⟩ | hr⟩
          · exact Or.inl hp
          · exact Or.inr ⟨r, hr⟩
      rw [Assembler.submitted]
      simp only
      split_ifs
      · refine ⟨fun p => ?_, fun b phase hb hphase => ?_⟩
        · rw [Assembler.enter, Option.toList_some, List.singleton_append, sinceClear_cons (by simp)]
          simpa using hmarked p
        · cases hb
          exact absurd rfl hphase
      · exact ⟨hmarked, fun _ _ hh => by cases hh⟩

/-- Every event preserves soundness. -/
lemma step (hstep : Assembler.step hooks A e = some A') (h : A.Sound) : A'.Sound := by
  cases effect_of_step hstep with
  | setTemplate template => exact h.setTemplate template
  | call a => exact h.waiting _
  | acquire a rest free first => exact (h.waiting rest).locked a
  | preAssembled a held u => exact h.assembleBlock (h.fresh a _ held (by simp))
  | preRaised a held error => exact h.release
  | assembled a held block => exact h.assembled (h.fresh a _ held (by simp)) block
  | postAssembled a block held u => exact h.submitBlock (h.fresh a _ held (by simp)) block
  | postRaised a block held error => exact h.release
  | submitted a block held outcome => exact h.submitted a outcome
  | broadcasted a held result => exact h.release

/-- Every reachable state is sound. -/
lemma run {events : List (Event Ctx)}
    (hrun : Machine.run (Assembler.step hooks) Assembler.init events = some A) : A.Sound :=
  Machine.run_preserves (fun _ _ _ hs h => h.step hs) Sound.init hrun

end Sound

/-! ### A rejected block -/

/-- The events that take the first call in line to its submission, if no hook and no prover
raises. -/
def toSubmission (hooks : AssembleHooks) (block : PyStr) : List (Event Ctx) :=
  .acquire :: ((if hooks.preAssemble then [.preAssembled (.ok ())] else [])
    ++ .assembled (.ok block) :: if hooks.postAssemble then [.postAssembled (.ok ())] else [])

/-- With the lock free, the first call in line whose parent is not assembled can be proved and
submitted. -/
lemma submits {a : Assembly Ctx} {rest : List (Assembly Ctx)} (free : A.holder = none)
    (first : A.waiting = a :: rest) (hfresh : a.parent ∉ A.assembledParents) (block : PyStr) :
    ∃ B, Machine.run (step hooks) A (toSubmission hooks block) = some B
      ∧ B.holder = some (a, .submitBlock block) := by
  obtain ⟨preAssemble, postAssemble, broadcast⟩ := hooks
  have hacquire : ∀ hooks, step hooks A .acquire
      = some (if hooks.preAssemble then
          enter { A with waiting := rest } a .preAssemble (some (.preAssemble a.parent))
        else assembleBlock { A with waiting := rest } a) := fun hooks => by
    simp only [step, free, first, locked, if_neg hfresh]
  cases preAssemble <;> cases postAssemble <;>
    exact ⟨_, Machine.run_cons_eq_some_iff.mpr ⟨_, hacquire _, rfl⟩, rfl⟩

/-- A parent is assembled only by an accepted block, and the next call in line for a parent without
one can be proved and submitted. -/
structure Unblocked (hooks : AssembleHooks) (A : Assembler Ctx) : Prop where
  accepted : ∀ p ∈ A.assembledParents, .submitBlock p (.ok none) ∈ sinceClear A.log
  submits : ∀ a rest block, A.holder = none → A.waiting = a :: rest →
    .submitBlock a.parent (.ok none) ∉ sinceClear A.log →
    ∃ B, Machine.run (step hooks) A (toSubmission hooks block) = some B
      ∧ B.holder = some (a, .submitBlock block)

end Assembler

open Assembler in
/-- **When a rejected block does not block the next one.**  In every state a run passes, a parent is
assembled only if a block of it was accepted since the last clear, and the next call in line for a
parent without an accepted block can be proved and submitted, exactly when no submission of the run
returns a reason. -/
theorem assembled_accepted_iff (hooks : AssembleHooks) (events : List (Event Ctx))
    (A : Assembler Ctx) (hrun : Machine.run (step hooks) .init events = some A) :
    (∀ past B, past <+: events → Machine.run (step hooks) .init past = some B → Unblocked hooks B)
      ↔ ∀ reason, .submitted (.ok (some reason)) ∉ events := by
  constructor
  · rintro hall reason hmem
    obtain ⟨past, B, B', hpre, hB, hstep, hB'⟩ := Machine.exists_step_of_mem hrun hmem
    cases effect_of_step hstep with
    | submitted a block held outcome =>
        -- the parent is marked by this submission, and was not marked before it
        have hsound := Sound.run hB
        have hfresh := hsound.fresh a _ held (by simp)
        have hmarked : a.parent ∈ (submitted hooks B a (.ok (some reason))).assembledParents := by
          rw [submitted]
          simp only
          split_ifs <;> exact Finset.mem_insert_self _ _
        have haccepted := (hall _ _ hpre hB').accepted _ hmarked
        refine hfresh ((hsound.marked _).mpr ⟨none, ?_⟩)
        rw [submitted] at haccepted
        simp only at haccepted
        split_ifs at haccepted
        · simpa [enter, sinceClear] using haccepted
        · simpa [release, sinceClear] using haccepted
  · intro hno past B hpre hB
    have hsound := Sound.run hB
    have hlogged : ∀ p outcome, .submitBlock p outcome ∈ B.log → .submitted outcome ∈ events :=
      Machine.run_invariant (G := fun _ e => e ∈ events)
        (I := fun A => ∀ p outcome, .submitBlock p outcome ∈ A.log → .submitted outcome ∈ events)
        (fun A e A' he hstep hA p outcome h => (submitBlock_mem_log hstep h).elim (hA p outcome)
          fun heq => heq ▸ he)
        (Machine.along_of_forall fun _ e he => hpre.subset he) (by simp [Assembler.init]) hB
    have haccepted : ∀ p ∈ B.assembledParents, .submitBlock p (.ok none) ∈ sinceClear B.log := by
      intro p hp
      obtain ⟨result, hresult⟩ := (hsound.marked p).mp hp
      cases result with
      | none => exact hresult
      | some reason => exact absurd (hlogged _ _ (sinceClear_subset _ hresult)) (hno reason)
    exact ⟨haccepted, fun a rest block free first hnot =>
      submits free first (fun hdone => hnot (haccepted _ hdone)) block⟩

/-! ### One call -/

namespace Assembler

/-- The call for a first share with no recipient. -/
def firstAssembly : Assembly Unit := ⟨⟨genesisShare 0 0 [] genesisPrev, (), [], 1⟩, []⟩

/-- The events of that call on a node without optional adapters, up to what `submit_block` makes of
a reply of pearld. -/
def firstEvents (reply : HttpReply) : List (Event Unit) :=
  [.call firstAssembly, .acquire, .assembled (.ok []),
    .submitted (NodeRpc.submitBlock ⟨"http://127.0.0.1:44107"⟩ reply)]

end Assembler

open Assembler in
/-- A submission that pearld answers without an error and without a reason. -/
theorem assembled_accepted_first : ∃ A,
    Machine.run (step ⟨false, false, false⟩) .init (firstEvents (.body ⟨none, none⟩)) = some A
      ∧ Unblocked ⟨false, false, false⟩ A :=
  ⟨_, rfl, (assembled_accepted_iff ⟨false, false, false⟩ (firstEvents (.body ⟨none, none⟩)) _
      rfl).mpr
    (fun reason => by simp [firstEvents, NodeRpc.submitBlock, NodeRpc.call, NodeRpc.resultOf]) _ _
    List.prefix_rfl rfl⟩

open Assembler in
/-- A block that pearld refuses with a reason marks its parent. -/
theorem rejected_assembled : ¬∀ (hooks : AssembleHooks) (events : List (Event Unit))
    (A : Assembler Unit), Machine.run (step hooks) .init events = some A → Unblocked hooks A := by
  intro h
  have haccepted := (h ⟨false, false, false⟩ (firstEvents (.body ⟨none, some "high-hash"⟩)) _
    rfl).accepted genesisPrev (Finset.mem_insert_self _ _)
  simp [call, locked, assembleBlock, assembled, Assembler.submitBlock, submitted, enter, release,
    sinceClear, Assembler.init, NodeRpc.submitBlock, NodeRpc.call, NodeRpc.resultOf] at haccepted

end P2Pearl
