import P2Pearl.Daemon.Attempts
import P2Pearl.Daemon.Submit

/-!
Whether a found block is lost.

* `PoolNode.Steady`: what holds of a node in every run; only proofs that clear the block target are
  assembled.
* `PoolNode.Underway`: a block-clearing proof for a parent is somewhere in the pipeline, or the
  prover was started for one.
* `PoolNode.Kept`: the event does not lose the last block-clearing proof for the parent.
* `block_attempted`: in every run whose events all keep it, a submitted block is attempted once the
  background tasks drain.
* `block_lost`: a run in which a proof that is no share keeps out a block for the same job.
-/

namespace P2Pearl

variable {Ctx : Type}

namespace PoolNode

variable {P : Params} {adapters : Adapters Ctx} {N N' : PoolNode Ctx} {p : Hash32}

/-! ### The pipeline -/

/-- The candidate of a job has an id. -/
lemma shareId_of_buildJobFor {C : Sharechain} {template : Option ParentTemplate} {minPayout : ℕ}
    {makeHeader : MakeHeader Ctx} {factor : ℕ+} {now : ℚ} {addr : PyStr} {job : Job Ctx}
    (h : buildJobFor P C template minPayout makeHeader factor now addr = .ok (some job)) :
    ∃ shareId, job.context.candidate.shareId = .ok shareId := by
  obtain ⟨t, -, hjob⟩ := jobFor_of_buildJobFor h
  obtain ⟨-, -, -, sid, -, -, -, -, hid, -⟩ := jobFor_eq_ok_iff.mp hjob
  exact ⟨sid, hid⟩

/-- What holds of a node in every run: the best tip is stored, the prover was started for every
assembled parent, and only proofs that clear the block target are assembled. -/
structure Steady (adapters : Adapters Ctx) (N : PoolNode Ctx) : Prop where
  tipStored : N.chain.TipStored
  recorded : N.assembler.Recorded
  cleared : ∀ a, N.assembler.Made a → a.ClearsBlock adapters

namespace Steady

lemma init : Steady adapters (init : PoolNode Ctx) := by
  refine ⟨fun _ h => (by cases h), Assembler.Recorded.init, fun a h => ?_⟩
  cases h with
  | waiting mem => exact absurd mem List.not_mem_nil
  | held phase holder => cases holder
  | started log => exact absurd log List.not_mem_nil

/-- A call whose proof clears leaves the node steady. -/
lemma call (h : N.Steady adapters) {a : Assembly Ctx} (ha : a.ClearsBlock adapters) :
    Steady adapters { N with assembler := N.assembler.call a } := by
  have hstep : Assembler.step adapters.hooks N.assembler (.call a)
      = some (N.assembler.call a) := rfl
  refine ⟨h.tipStored, h.recorded.step hstep, fun b hb => ?_⟩
  rcases Assembler.Made.of_step hstep hb with hb | heq
  · exact h.cleared b hb
  · cases heq; exact ha

/-- Every event leaves the node steady. -/
lemma step {e : Event Ctx} (hstep : PoolNode.step P adapters N e = some N')
    (h : N.Steady adapters) : N'.Steady adapters := by
  cases e with
  | submit submission =>
      cases hstep
      obtain ⟨hchain, -, -, hassembler⟩ := handleSubmit_frame N submission
      exact ⟨by rw [hchain]; exact h.tipStored, by rw [hassembler]; exact h.recorded,
        by rw [hassembler]; exact h.cleared⟩
  | validated i now vardiffChanged =>
      obtain ⟨v, -, rfl⟩ := Option.map_eq_some_iff.mp hstep
      obtain ⟨hchain, -, -, hassembler⟩ := finishValidation_frame P adapters
        { N with validations := N.validations.eraseIdx i } v now vardiffChanged
      refine ⟨?_, by rw [hassembler]; exact h.recorded, by rw [hassembler]; exact h.cleared⟩
      rcases hchain with hchain | ⟨call, hchain⟩
      · rw [hchain]; exact h.tipStored
      · rw [hchain]; exact h.tipStored.addShare call
  | checked i =>
      obtain ⟨f, -, rfl⟩ := Option.map_eq_some_iff.mp hstep
      obtain ⟨hchain, -, -, hassembler⟩ := finishFollowup_frame adapters
        { N with followups := N.followups.eraseIdx i } f
      rcases hassembler with hassembler | ⟨a, ha, hassembler⟩
      · exact ⟨by rw [hchain]; exact h.tipStored, by rw [hassembler]; exact h.recorded,
          by rw [hassembler]; exact h.cleared⟩
      · have hcall := h.call ha
        exact ⟨by rw [hchain]; exact h.tipStored, by rw [hassembler]; exact hcall.recorded,
          by rw [hassembler]; exact hcall.cleared⟩
  | addShare call => cases hstep; exact ⟨h.tipStored.addShare call, h.recorded, h.cleared⟩
  | collaborate share proof =>
      cases hstep
      rcases collaborate_cases adapters N share proof with heq | ⟨a, ha, heq⟩
      · rw [heq]; exact h
      · rw [heq]; exact h.call ha
  | assembler e =>
      obtain ⟨hcall, A, hA, rfl⟩ := step_assembler hstep
      exact ⟨h.tipStored, h.recorded.step hA, fun a ha =>
        h.cleared a ((Assembler.Made.of_step hA ha).resolve_right (hcall a))⟩

/-- Every reachable node is steady. -/
lemma run {events : List (Event Ctx)}
    (hrun : Machine.run (PoolNode.step P adapters) .init events = some N) : N.Steady adapters :=
  Machine.run_preserves (fun _ _ _ hs h => h.step hs) Steady.init hrun

end Steady

end PoolNode

/-- The proof of the validation clears the share target and the block target. -/
def Validation.ClearsBlock (adapters : Adapters Ctx) (v : Validation Ctx) : Prop :=
  adapters.verifyShare v.headerBytes v.submission.plainProof v.shareNbits v.context.certVersion
      = .ok true
    ∧ adapters.verifyBlock v.headerBytes v.submission.plainProof v.context.certVersion = .ok true

/-- The proof of the follow-up clears the block target. -/
def Followup.ClearsBlock (adapters : Adapters Ctx) (f : Followup Ctx) : Prop :=
  adapters.verifyBlock f.headerBytes f.submission.plainProof f.context.certVersion = .ok true

/-- The proof of a submission for the job of `context` clears the share and the block target. -/
def Submission.ClearsBlock (adapters : Adapters Ctx) (s : Submission Ctx)
    (context : JobContext Ctx) : Prop :=
  adapters.verifyShare s.job.incompleteHeader s.plainProof (targetToBits s.job.shareTarget)
      context.certVersion = .ok true
    ∧ adapters.verifyBlock s.job.incompleteHeader s.plainProof context.certVersion = .ok true

namespace PoolNode

variable {P : Params} {adapters : Adapters Ctx} {N N' : PoolNode Ctx} {p : Hash32}

/-- A block-clearing proof for the parent is validated, checked or assembled, or the prover was
started for one. -/
inductive Underway (adapters : Adapters Ctx) (N : PoolNode Ctx) (p : Hash32) : Prop
  | validating (v : Validation Ctx) (mem : v ∈ N.validations) (clears : v.ClearsBlock adapters)
      (parent : v.context.candidate.parentPrevBlock = p)
  | checking (f : Followup Ctx) (mem : f ∈ N.followups) (clears : f.ClearsBlock adapters)
      (parent : f.context.candidate.parentPrevBlock = p)
  | assembling (underway : N.assembler.Underway p)

/-- More tasks keep it under way. -/
lemma Underway.mono (h : Underway adapters N p) (hv : N.validations ⊆ N'.validations)
    (hf : N.followups ⊆ N'.followups)
    (ha : N.assembler.Underway p → N'.assembler.Underway p) : Underway adapters N' p := by
  cases h with
  | validating v mem clears parent => exact .validating v (hv mem) clears parent
  | checking f mem clears parent => exact .checking f (hf mem) clears parent
  | assembling underway => exact .assembling (ha underway)

/-- The prover was started for the parent, with a proof that clears the block target. -/
def Attempted (adapters : Adapters Ctx) (N : PoolNode Ctx) (p : Hash32) : Prop :=
  ∃ a, .assembleBlock a ∈ N.assembler.log ∧ a.parent = p ∧ a.ClearsBlock adapters

/-- Once the tasks are done, what was under way was attempted. -/
lemma Underway.attempted (hsteady : N.Steady adapters) (h : Underway adapters N p)
    (hdrained : N.Drained) : N.Attempted adapters p := by
  cases h with
  | validating v mem clears parent => rw [hdrained.validations] at mem; cases mem
  | checking f mem clears parent => rw [hdrained.followups] at mem; cases mem
  | assembling underway =>
      cases underway with
      | waiting a mem parent => rw [hdrained.waiting] at mem; cases mem
      | hooked a held parent => rw [hdrained.holder] at held; cases held
      | attempted started =>
          obtain ⟨a, log, parent⟩ := started
          exact ⟨a, log, parent, hsteady.cleared a (.started log)⟩

/-- The event does not lose the last block-clearing proof for the parent: one that is submitted is
for a share that is neither stored nor being validated, the share of one that is verified is still
admitted, and the pre hook does not raise, or another proof for the parent is under way. -/
def Kept (P : Params) (adapters : Adapters Ctx) (p : Hash32) (N : PoolNode Ctx) : Event Ctx → Prop
  | .submit s => ∀ context shareId, s.job.context = some context →
      context.candidate.shareId = .ok shareId → context.candidate.parentPrevBlock = p →
      s.ClearsBlock adapters context → ¬N.Known shareId ∨ Underway adapters N p
  | .validated i now _ => ∀ v, N.validations[i]? = some v →
      v.context.candidate.parentPrevBlock = p → v.ClearsBlock adapters →
      validate P N.chain.entries.get v.context.candidate now = .ok none
        ∨ Underway adapters { N with validations := N.validations.eraseIdx i } p
  | .assembler (.preAssembled (.error _)) => ∀ a, N.assembler.holder = some (a, .preAssemble) →
      a.parent = p → Underway adapters { N with assembler := N.assembler.release } p
  | _ => True

/-- A block-clearing submission that is not lost is under way. -/
lemma underway_submit {s : Submission Ctx} {context : JobContext Ctx} {shareId : Hash32}
    (hcontext : s.job.context = some context) (hid : context.candidate.shareId = .ok shareId)
    (hclears : s.ClearsBlock adapters context)
    (hkept : Kept P adapters context.candidate.parentPrevBlock N (.submit s)) :
    Underway adapters (N.handleSubmit s).1 context.candidate.parentPrevBlock := by
  by_cases hknown : N.Known shareId
  · rw [handleSubmit_of_known hcontext hid hknown]
    exact (hkept context shareId hcontext hid rfl hclears).resolve_left (not_not.mpr hknown)
  · rw [handleSubmit_of_not_known hcontext hid hknown]
    exact .validating _ (List.mem_append_right _ (List.mem_singleton.mpr rfl)) hclears rfl

/-- When a validation comes back, another proof is under way, or its own clears. -/
lemma Underway.without_validation {i : ℕ} {v : Validation Ctx} (hi : N.validations[i]? = some v)
    (h : Underway adapters N p) :
    Underway adapters { N with validations := N.validations.eraseIdx i } p
      ∨ v.context.candidate.parentPrevBlock = p ∧ v.ClearsBlock adapters := by
  cases h with
  | validating w mem clears parent =>
      obtain ⟨hlt, rfl⟩ := List.getElem?_eq_some_iff.mp hi
      rcases List.mem_cons.mp ((List.getElem_cons_eraseIdx_perm hlt).mem_iff.mpr mem) with
        rfl | mem
      · exact Or.inr ⟨parent, clears⟩
      · exact Or.inl (.validating w mem clears parent)
  | checking f mem clears parent => exact Or.inl (.checking f mem clears parent)
  | assembling underway => exact Or.inl (.assembling underway)

/-- When a follow-up comes back, another proof is under way, or its own clears. -/
lemma Underway.without_followup {i : ℕ} {f : Followup Ctx} (hi : N.followups[i]? = some f)
    (h : Underway adapters N p) :
    Underway adapters { N with followups := N.followups.eraseIdx i } p
      ∨ f.context.candidate.parentPrevBlock = p ∧ f.ClearsBlock adapters := by
  cases h with
  | validating v mem clears parent => exact Or.inl (.validating v mem clears parent)
  | checking g mem clears parent =>
      obtain ⟨hlt, rfl⟩ := List.getElem?_eq_some_iff.mp hi
      rcases List.mem_cons.mp ((List.getElem_cons_eraseIdx_perm hlt).mem_iff.mpr mem) with
        rfl | mem
      · exact Or.inr ⟨parent, clears⟩
      · exact Or.inl (.checking g mem clears parent)
  | assembling underway => exact Or.inl (.assembling underway)

lemma Underway.finishValidation (h : Underway adapters N p) (v : Validation Ctx) (now : ℚ)
    (vardiffChanged : Bool) :
    Underway adapters (finishValidation P adapters N v now vardiffChanged) p := by
  obtain ⟨-, hv, hf, ha⟩ := finishValidation_frame P adapters N v now vardiffChanged
  exact h.mono (by rw [hv]; exact List.Subset.refl _) hf (by rw [ha]; exact id)

lemma Underway.finishFollowup (h : Underway adapters N p) (f : Followup Ctx) :
    Underway adapters (finishFollowup adapters N f) p := by
  obtain ⟨-, hv, hf, ha⟩ := finishFollowup_frame adapters N f
  refine h.mono (by rw [hv]; exact List.Subset.refl _) (by rw [hf]; exact List.Subset.refl _) ?_
  intro h
  rcases ha with ha | ⟨a, -, ha⟩
  · rw [ha]; exact h
  · rw [ha]; exact h.call a

/-- **What can lose a block**: an event that keeps it under way keeps it under way. -/
lemma Underway.step {e : Event Ctx} (hsteady : N.Steady adapters)
    (hstep : PoolNode.step P adapters N e = some N') (hkept : Kept P adapters p N e)
    (h : Underway adapters N p) : Underway adapters N' p := by
  cases e with
  | submit s =>
      cases hstep
      obtain ⟨-, hv, hf, ha⟩ := handleSubmit_frame N s
      exact h.mono hv (by rw [hf]; exact List.Subset.refl _) (by rw [ha]; exact id)
  | validated i now vardiffChanged =>
      obtain ⟨v, hi, rfl⟩ := Option.map_eq_some_iff.mp hstep
      rcases h.without_validation hi with hother | ⟨parent, clears⟩
      · exact hother.finishValidation v now vardiffChanged
      · rcases hkept v hi parent clears with hvalid | hother
        · let rest : PoolNode Ctx := { N with validations := N.validations.eraseIdx i }
          have hmem := followup_of_finishValidation (N := rest) hsteady.tipStored clears.1 hvalid
            vardiffChanged
          exact .checking _ hmem clears.2 parent
        · exact hother.finishValidation v now vardiffChanged
  | checked i =>
      obtain ⟨f, hi, rfl⟩ := Option.map_eq_some_iff.mp hstep
      rcases h.without_followup hi with hother | ⟨parent, clears⟩
      · exact hother.finishFollowup f
      · refine .assembling (.waiting ⟨f.context, f.submission.plainProof⟩ ?_ parent)
        rw [PoolNode.finishFollowup, clears]
        exact List.mem_append_right _ (List.mem_singleton.mpr rfl)
  | addShare call => cases hstep; exact h.mono (List.Subset.refl _) (List.Subset.refl _) id
  | collaborate share proof =>
      cases hstep
      rcases collaborate_cases adapters N share proof with heq | ⟨a, -, heq⟩
      · rw [heq]; exact h
      · rw [heq]; exact h.mono (List.Subset.refl _) (List.Subset.refl _) fun h => h.call a
  | assembler e =>
      obtain ⟨-, A, hA, rfl⟩ := step_assembler hstep
      by_cases hraise : ∃ a error, e = .preAssembled (.error error)
          ∧ N.assembler.holder = some (a, .preAssemble) ∧ a.parent = p
      · obtain ⟨a, error, rfl, held, parent⟩ := hraise
        have hrelease : A = N.assembler.release := by
          simp only [Assembler.step, held, Option.some.injEq] at hA
          exact hA.symm
        rw [hrelease]
        exact hkept a held parent
      · refine h.mono (List.Subset.refl _) (List.Subset.refl _)
          (Assembler.Underway.step hsteady.recorded hA ?_)
        exact fun a error he held parent => hraise ⟨a, error, he, held, parent⟩

/-- **Nothing less keeps it**: where a proof for the parent is under way after an event, the event
has kept it. -/
theorem kept_of_underway {e : Event Ctx} (hstep : PoolNode.step P adapters N e = some N')
    (h : Underway adapters N' p) : Kept P adapters p N e := by
  cases e with
  | submit s =>
      intro context shareId hcontext hid _ _
      by_cases hknown : N.Known shareId
      · cases hstep
        rw [handleSubmit_of_known hcontext hid hknown] at h
        exact Or.inr h
      · exact Or.inl hknown
  | validated i now vardiffChanged =>
      intro v hi _ _
      by_cases hvalid : validate P N.chain.entries.get v.context.candidate now = .ok none
      · exact Or.inl hvalid
      · obtain ⟨w, hw, rfl⟩ := Option.map_eq_some_iff.mp hstep
        cases hi.symm.trans hw
        let rest : PoolNode Ctx := { N with validations := N.validations.eraseIdx i }
        obtain ⟨-, hv, -, ha⟩ := finishValidation_frame P adapters rest v now vardiffChanged
        have hf : (finishValidation P adapters rest v now vardiffChanged).followups
            = rest.followups := followups_of_not_valid (N := rest) hvalid vardiffChanged
        exact Or.inr (h.mono (by rw [hv]; exact List.Subset.refl _)
          (by rw [hf]; exact List.Subset.refl _) (by rw [ha]; exact id))
  | checked i => trivial
  | addShare call => trivial
  | collaborate share proof => trivial
  | assembler e =>
      cases e with
      | preAssembled result =>
          cases result with
          | ok u => trivial
          | error error =>
              intro a held parent
              obtain ⟨-, A, hA, rfl⟩ := step_assembler hstep
              simp only [Assembler.step, held, Option.some.injEq] at hA
              rw [← hA] at h
              exact h
      | _ => trivial

end PoolNode

open PoolNode in
/-- **A found block is not lost, if every event keeps it.**  Let a miner submit a proof for a live
job that both verifiers accept on the header of the job.  If, from then on, every event keeps the
block-clearing proofs for the parent of the job, then once the background tasks drain, the prover
was started for that parent. -/
theorem block_attempted (P : Params) (adapters : Adapters Ctx) (before after : List (Event Ctx))
    (N M : PoolNode Ctx) (submission : Submission Ctx) (job : Job Ctx) (jobId : PyStr)
    (hminted : submission.job = job.mint jobId)
    (hlive : ∃ C template minPayout makeHeader factor now addr,
      buildJobFor P C template minPayout makeHeader factor now addr = .ok (some job))
    (hshare : adapters.verifyShare job.header submission.plainProof (targetToBits job.shareTarget)
      job.context.certVersion = .ok true)
    (hblock : adapters.verifyBlock job.header submission.plainProof job.context.certVersion
      = .ok true)
    (hbefore : Machine.run (step P adapters) .init before = some N)
    (hafter : Machine.run (step P adapters) N (.submit submission :: after) = some M)
    (hkept : Machine.Along (step P adapters)
      (Kept P adapters job.context.candidate.parentPrevBlock) N (.submit submission :: after))
    (hdrained : M.Drained) :
    M.Attempted adapters job.context.candidate.parentPrevBlock := by
  obtain ⟨C, template, minPayout, makeHeader, factor, now, addr, hbuild⟩ := hlive
  obtain ⟨shareId, hid⟩ := shareId_of_buildJobFor hbuild
  obtain ⟨N', hstep, hrun⟩ := Machine.run_cons_eq_some_iff.mp hafter
  cases hstep
  have hcontext : submission.job.context = some job.context := by rw [hminted]; rfl
  have hclears : submission.ClearsBlock adapters job.context := by
    rw [Submission.ClearsBlock, hminted]
    exact ⟨hshare, hblock⟩
  have hsubmit : step P adapters N (.submit submission) = some (N.handleSubmit submission).1 := rfl
  have hsteady := (Steady.run hbefore).step hsubmit
  have hunderway := underway_submit hcontext hid hclears hkept.1
  have hrest := hkept.2 _ rfl
  have hend := Machine.run_invariant
    (I := fun N => N.Steady adapters ∧ Underway adapters N job.context.candidate.parentPrevBlock)
    (fun N e N' hk hs h => ⟨h.1.step hs, h.2.step h.1 hs hk⟩) hrest ⟨hsteady, hunderway⟩ hrun
  exact hend.2.attempted hend.1 hdrained

/-! ### The first job -/

/-- The first job of a new node whose header builder returns nothing. -/
def firstJob : Job Unit := ⟨[], bootstrapShareTarget, 0, ⟨firstCandidate, (), [], 1⟩⟩

lemma buildJobFor_firstJob : buildJobFor {} .empty (some firstTemplate) minPayoutGrains
    (fun _ _ _ => .ok ([], ())) 1 0 ['a'] = .ok (some firstJob) :=
  (buildJobFor_eq_ok_iff (by simp)).mpr (jobFor_first rfl)

/-- A submission for that job. -/
def firstSubmission (plainProof : PyStr) (ascii : IsAscii plainProof) : Submission Unit :=
  ⟨some ['a'], [], firstJob.mint ['1'], plainProof, ascii⟩

/-- A node without optional adapters, whose verifiers accept one proof. -/
def oneProof (proof : PyStr) : Adapters Unit where
  verifyShare _ plainProof _ _ := .ok (decide (plainProof = proof))
  verifyBlock _ plainProof _ := .ok (decide (plainProof = proof))
  makeHeaderFromShare := none
  setCertVersion headerCtx _ := headerCtx
  broadcastShare := false
  hooks := ⟨false, false, false⟩

/-- The validation of a submission for that job. -/
def firstValidation (plainProof : PyStr) (ascii : IsAscii plainProof) : Validation Unit :=
  ⟨firstSubmission plainProof ascii, firstJob.context, [], targetToBits bootstrapShareTarget,
    doubleSha256 firstCandidate.wire⟩

/-- A submission for the first job to a node with an empty sharechain starts its validation. -/
lemma handleSubmit_firstSubmission {N : PoolNode Unit} (hchain : N.chain = .empty)
    (hpending : N.pendingShares = ∅) (plainProof : PyStr) (ascii : IsAscii plainProof) :
    (N.handleSubmit (firstSubmission plainProof ascii)).1 = { N with
      pendingShares := {doubleSha256 firstCandidate.wire}
      validations := N.validations ++ [firstValidation plainProof ascii] } := by
  have hnot : ¬N.Known (doubleSha256 firstCandidate.wire) := by
    rw [PoolNode.Known, hchain, hpending]
    rintro (h | h)
    · exact h rfl
    · exact absurd h (Finset.notMem_empty _)
  rw [PoolNode.handleSubmit_of_not_known rfl firstCandidate_encodable.shareId hnot, hpending]
  rfl

namespace PoolNode

/-- A new node with an assembler, while it validates a submission for the first job. -/
def validatingFirst (assembler : Assembler Unit) (plainProof : PyStr) (ascii : IsAscii plainProof) :
    PoolNode Unit :=
  { PoolNode.init with
    pendingShares := {doubleSha256 firstCandidate.wire}
    validations := [firstValidation plainProof ascii]
    assembler }

/-- The node when the validation has failed. -/
def refusedFirst (assembler : Assembler Unit) : PoolNode Unit :=
  { PoolNode.init with
    pendingShares :=
      Finset.erase {doubleSha256 firstCandidate.wire} (doubleSha256 firstCandidate.wire)
    assembler }

/-- The sharechain with the candidate of the first job, with that proof. -/
def firstStored : Sharechain :=
  ⟨Store.set (fun _ => none) (doubleSha256 firstCandidate.wire)
    ⟨firstCandidate, firstCandidate.difficulty, some (zeroProof.map fun c => UInt8.ofNat c.toNat)⟩,
    some (doubleSha256 firstCandidate.wire)⟩

lemma addShare_firstCandidate : addShare {} .empty ⟨firstCandidate, true,
    some (zeroProof.map fun c => UInt8.ofNat c.toNat), 0⟩ = (firstStored, .ok ⟨true, true, ""⟩) :=
  addShare_genesisShare 1 0 ['a'] (doubleSha256 (leBytes 4 0)) _ le_rfl
    firstCandidate_encodable.shareId

lemma validate_firstCandidate {now : ℚ} (hnow : 0 ≤ now) :
    validate {} Sharechain.empty.entries.get firstCandidate now = .ok none :=
  validate_eq_ok_none_iff.mpr
    ⟨_, firstCandidate_encodable.shareId, genesisShare_valid _ _ _ _ hnow _⟩

section First

variable {adapters : Adapters Unit} {assembler : Assembler Unit}
  {plainProof plainProof' : PyStr} {ascii : IsAscii plainProof} {ascii' : IsAscii plainProof'}

/-- A new node takes up the first submission. -/
lemma step_submit_first : step {} adapters { PoolNode.init with assembler }
    (.submit (firstSubmission plainProof ascii))
      = some (validatingFirst assembler plainProof ascii) :=
  congrArg some (handleSubmit_firstSubmission rfl rfl plainProof ascii)

/-- Another submission for the job is a duplicate then. -/
lemma step_submit_duplicate : step {} adapters (validatingFirst assembler plainProof ascii)
    (.submit (firstSubmission plainProof' ascii'))
      = some (validatingFirst assembler plainProof ascii) :=
  congrArg (fun r => some (Prod.fst r)) (handleSubmit_of_known rfl
    firstCandidate_encodable.shareId (Or.inr (Finset.mem_singleton_self _)))

/-- The states in which a submission is lost: it comes while another one is validated, and that one
fails. -/
lemma run_lost (hfails : step {} adapters (validatingFirst assembler plainProof ascii)
      (.validated 0 0 false) = some (refusedFirst assembler)) :
    Machine.run (step {} adapters) (validatingFirst assembler plainProof ascii)
        [.submit (firstSubmission plainProof' ascii'), .validated 0 0 false]
          = some (refusedFirst assembler)
      ∧ ∀ past K, past <+: [.submit (firstSubmission plainProof' ascii'), .validated 0 0 false] →
        Machine.run (step {} adapters) (validatingFirst assembler plainProof ascii) past = some K →
        K.chain = .empty ∧ K.assembler = assembler := by
  refine ⟨Machine.run_cons_eq_some_iff.mpr ⟨_, step_submit_duplicate,
    Machine.run_cons_eq_some_iff.mpr ⟨_, hfails, rfl⟩⟩, ?_⟩
  refine Machine.forall_prefix_cons_iff.mpr ⟨⟨rfl, rfl⟩, fun K hK => ?_⟩
  cases step_submit_duplicate.symm.trans hK
  refine Machine.forall_prefix_cons_iff.mpr ⟨⟨rfl, rfl⟩, fun K hK => ?_⟩
  cases hfails.symm.trans hK
  exact Machine.forall_prefix_nil_iff.mpr ⟨rfl, rfl⟩

end First

end PoolNode

open PoolNode in
/-- A miner's block is validated, checked and proved; the prover raises, but was attempted. -/
theorem block_attempted_first : ∃ M,
    Machine.run (step {} (oneProof zeroProof)) .init
        [.submit (firstSubmission zeroProof (by decide)), .validated 0 0 false, .checked 0,
          .assembler .acquire, .assembler (.assembled (.error .external))] = some M
      ∧ M.Attempted (oneProof zeroProof) genesisPrev := by
  have hsubmit : step {} (oneProof zeroProof) .init
      (.submit (firstSubmission zeroProof (by decide)))
      = some (validatingFirst .init zeroProof (by decide)) := step_submit_first
  have hvalidated : step {} (oneProof zeroProof) (validatingFirst .init zeroProof (by decide))
      (.validated 0 0 false) = some _ :=
    congrArg some (finishValidation_of_accepted (v := firstValidation zeroProof (by decide)) rfl
      addShare_firstCandidate false)
  have hrun := Machine.run_cons_eq_some_iff.mpr ⟨_, hsubmit, Machine.run_cons_eq_some_iff.mpr
    ⟨_, hvalidated, (rfl : Machine.run (step {} (oneProof zeroProof)) _ [.checked 0,
      .assembler .acquire, .assembler (.assembled (.error .external))] = some _)⟩⟩
  refine ⟨_, hrun, block_attempted {} (oneProof zeroProof) [] _ .init _
    (firstSubmission zeroProof (by decide)) firstJob ['1'] rfl
    ⟨_, _, _, _, _, _, _, buildJobFor_firstJob⟩ rfl rfl rfl hrun
    ⟨?_, fun N hN => ⟨?_, fun _ _ => ⟨trivial, fun _ _ => ⟨trivial, fun _ _ =>
      ⟨trivial, fun _ _ => trivial⟩⟩⟩⟩⟩ ⟨rfl, rfl, rfl, rfl⟩⟩
  · intro context shareId _ _ _ _
    exact Or.inl (by simp [Known, PoolNode.init, Sharechain.empty])
  · cases hsubmit.symm.trans hN
    intro w hw _ _
    cases hw
    exact Or.inl (validate_firstCandidate le_rfl)

open PoolNode in
/-- A proof that is no share keeps out a proof that clears the block target, while it is
validated. -/
theorem block_lost : ¬∀ (P : Params) (adapters : Adapters Unit) (before after : List (Event Unit))
    (N M : PoolNode Unit) (submission : Submission Unit) (job : Job Unit) (jobId : PyStr),
    submission.job = job.mint jobId →
    (∃ C template minPayout makeHeader factor now addr,
      buildJobFor P C template minPayout makeHeader factor now addr = .ok (some job)) →
    adapters.verifyShare job.header submission.plainProof (targetToBits job.shareTarget)
      job.context.certVersion = .ok true →
    adapters.verifyBlock job.header submission.plainProof job.context.certVersion = .ok true →
    Machine.run (step P adapters) .init before = some N →
    Machine.run (step P adapters) N (.submit submission :: after) = some M →
    (∀ past K, past <+: .submit submission :: after →
      Machine.run (step P adapters) N past = some K →
      K.assembler.template.map ParentTemplate.prevBlock
        = some job.context.candidate.parentPrevBlock) →
    M.Drained →
    M.Attempted adapters job.context.candidate.parentPrevBlock := by
  intro h
  let A : Assembler Unit := ⟨some firstTemplate, ∅, [], none, [.clear]⟩
  have hbusy : Machine.run (step {} (oneProof zeroProof)) .init
      [.assembler (.setTemplate firstTemplate), .submit (firstSubmission [] (by decide))]
        = some (validatingFirst A [] (by decide)) :=
    Machine.run_cons_eq_some_iff.mpr ⟨{ PoolNode.init with assembler := A }, rfl,
      Machine.run_cons_eq_some_iff.mpr ⟨_, step_submit_first, rfl⟩⟩
  obtain ⟨hrun, hstates⟩ :=
    @run_lost (oneProof zeroProof) A [] zeroProof (by decide) (by decide) rfl
  have hattempted := h {} (oneProof zeroProof) _ [.validated 0 0 false] _ (refusedFirst A)
    (firstSubmission zeroProof (by decide)) firstJob ['1'] rfl
    ⟨_, _, _, _, _, _, _, buildJobFor_firstJob⟩ rfl rfl hbusy hrun
    (fun past K hpast hK => by rw [(hstates past K hpast hK).2]; rfl) ⟨rfl, rfl, rfl, rfl⟩
  obtain ⟨a, hlog, -⟩ := hattempted
  simp [refusedFirst, A] at hlog

end P2Pearl
