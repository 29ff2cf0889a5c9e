import P2Pearl.Consensus.Difficulty
import P2Pearl.Daemon.Assembler

/-!
The submit pipeline of `PoolNode`: `handle_submit`, its background validations and follow-ups,
`try_collaborative_submit`, and the calls of `_assemble_and_submit` they lead to.

* `PoolNode`: the sharechain, the pending shares, the background tasks, the assembler, and a record
  of what was scheduled, which the code does not keep.
* `PoolNode.step`: one event between two awaits; the verifiers are functions of their arguments, and
  the tasks come back in any order.
* `handleSubmit_frame`, `addVerified_frame`, `finishValidation_frame`, `finishFollowup_frame`,
  `collaborate_cases`, `step_assembler`, `step_chain`: what each event leaves as it is.
* `followup_of_finishValidation`: a verified proof is checked for a block where the sharechain
  admits its share; `followups_of_not_valid`: and only there.
-/

namespace P2Pearl

variable {Ctx : Type}

/-! ### Submissions -/

/-- `StratumJob`; a context that is not a `_JobContext` is `none`. -/
structure StratumJob (Ctx : Type) where
  jobId : PyStr
  incompleteHeader : Bytes
  shareTarget : ℕ
  height : ℕ
  context : Option (JobContext Ctx)

/-- The job the registry mints from what `build_job_for` returns. -/
def Job.mint (job : Job Ctx) (jobId : PyStr) : StratumJob Ctx :=
  ⟨jobId, job.header, job.shareTarget, job.height, some job.context⟩

/-- `Submission`; the connection has checked that the proof is base64. -/
structure Submission (Ctx : Type) where
  workerAddress : Option PyStr
  workerLabel : PyStr
  job : StratumJob Ctx
  plainProof : PyStr
  ascii : IsAscii plainProof

/-- `SubmitResult`. -/
structure SubmitResult where
  accepted : Bool
  errorCode : Option ℤ
  errorMessage : Option String
  deriving DecidableEq

/-- `INVALID_PARAMS_CODE`. -/
def invalidParamsCode : ℤ := -32602

/-! ### The node -/

/-- The adapters of a node: the verifiers, and the optional ones it has. -/
structure Adapters (Ctx : Type) where
  /-- `verify_share`, of header, proof, compact share target and certificate version. -/
  verifyShare : Bytes → PyStr → ℕ → ℕ → Except PyError Bool
  /-- `verify_block`, of header, proof and certificate version. -/
  verifyBlock : Bytes → PyStr → ℕ → Except PyError Bool
  /-- `make_header_from_share`, where the node has it, on its sharechain. -/
  makeHeaderFromShare : Option (Sharechain → ShareBlock → Except PyError (Option (Bytes × Ctx)))
  setCertVersion : Ctx → ℕ → Ctx
  broadcastShare : Bool
  hooks : AssembleHooks

/-- A background `_run_submit_validation`, with the share id it starts with. -/
structure Validation (Ctx : Type) where
  submission : Submission Ctx
  context : JobContext Ctx
  headerBytes : Bytes
  shareNbits : ℕ
  shareId : Hash32

/-- A background `_run_submit_followup`. -/
structure Followup (Ctx : Type) where
  submission : Submission Ctx
  context : JobContext Ctx
  headerBytes : Bytes

/-- What a validation schedules. -/
inductive Scheduled where
  | refresh
  | shareGossip (shareId : Hash32)
  | followup (shareId : Hash32)
  deriving DecidableEq

/-- The part of a `PoolNode` that takes submissions. -/
structure PoolNode (Ctx : Type) where
  chain : Sharechain
  pendingShares : Finset Hash32
  validations : List (Validation Ctx)
  followups : List (Followup Ctx)
  assembler : Assembler Ctx
  /-- What validations have scheduled, newest first. -/
  scheduled : List Scheduled

/-- The block verifier accepts the proof of the call. -/
def Assembly.ClearsBlock (adapters : Adapters Ctx) (a : Assembly Ctx) : Prop :=
  ∃ headerBytes, adapters.verifyBlock headerBytes a.plainProof a.context.certVersion = .ok true

namespace PoolNode

/-- A new node. -/
def init : PoolNode Ctx := ⟨.empty, ∅, [], [], .init, []⟩

/-- The share is stored or being validated. -/
def Known (N : PoolNode Ctx) (shareId : Hash32) : Prop :=
  N.chain.entries shareId ≠ none ∨ shareId ∈ N.pendingShares

instance (N : PoolNode Ctx) (shareId : Hash32) : Decidable (N.Known shareId) :=
  inferInstanceAs (Decidable (_ ∨ _))

/-- `handle_submit`. -/
def handleSubmit (N : PoolNode Ctx) (submission : Submission Ctx) :
    PoolNode Ctx × Except PyError SubmitResult :=
  match submission.job.context with
  | none => (N, .ok ⟨false, some invalidParamsCode, some "job has no candidate share"⟩)
  | some context =>
      match context.candidate.shareId with
      | .error e => (N, .error e)
      | .ok shareId =>
          if N.Known shareId then (N, .ok ⟨true, none, some "duplicate"⟩)
          else
            ({ N with
                pendingShares := insert shareId N.pendingShares
                validations := N.validations ++ [⟨submission, context,
                  submission.job.incompleteHeader, targetToBits submission.job.shareTarget,
                  shareId⟩] },
              .ok ⟨true, none, none⟩)

/-- `_run_submit_validation` once the proof is verified: the share is added, and where it is
accepted, its gossip and its block check are scheduled, and a refresh where the best tip or the
target factor of the worker has changed. -/
def addVerified (P : Params) (broadcastShare : Bool) (N : PoolNode Ctx) (v : Validation Ctx)
    (now : ℚ) (vardiffChanged : Bool) : PoolNode Ctx :=
  match encodeAscii v.submission.plainProof with
  | .error _ => N
  | .ok proof =>
      match addShare P N.chain ⟨v.context.candidate, true, some proof, now⟩ with
      | (chain, .ok ⟨true, isBestTip, _⟩) =>
          { N with
            chain
            followups := N.followups ++ [⟨v.submission, v.context, v.headerBytes⟩]
            scheduled := .followup v.shareId
              :: ((if broadcastShare then [.shareGossip v.shareId] else [])
                ++ (if isBestTip || vardiffChanged then [.refresh] else []) ++ N.scheduled) }
      | (chain, _) => { N with chain }

/-- `_run_submit_validation`, from the verdict of the share verifier on; a share is no longer
pending however it ends. -/
def finishValidation (P : Params) (adapters : Adapters Ctx) (N : PoolNode Ctx) (v : Validation Ctx)
    (now : ℚ) (vardiffChanged : Bool) : PoolNode Ctx :=
  let N :=
    match adapters.verifyShare v.headerBytes v.submission.plainProof v.shareNbits
      v.context.certVersion with
    | .ok true => addVerified P adapters.broadcastShare N v now vardiffChanged
    | _ => N
  { N with pendingShares := N.pendingShares.erase v.shareId }

/-- `_run_submit_followup`, from the verdict of the block verifier on. -/
def finishFollowup (adapters : Adapters Ctx) (N : PoolNode Ctx) (f : Followup Ctx) : PoolNode Ctx :=
  match adapters.verifyBlock f.headerBytes f.submission.plainProof f.context.certVersion with
  | .ok true => { N with assembler := N.assembler.call ⟨f.context, f.submission.plainProof⟩ }
  | _ => N

/-- `try_collaborative_submit`, which calls `_assemble_and_submit` at its end. -/
def collaborate (adapters : Adapters Ctx) (N : PoolNode Ctx) (share : ShareBlock) (proof : PyStr) :
    PoolNode Ctx :=
  match adapters.makeHeaderFromShare with
  | none => N
  | some makeHeaderFromShare =>
      match tryCollaborativeSubmit (makeHeaderFromShare N.chain) adapters.setCertVersion
        adapters.verifyBlock N.assembler.template share proof with
      | .ok (some context) => { N with assembler := N.assembler.call ⟨context, proof⟩ }
      | _ => N

/-- What can happen: a miner submits, the verdict on the `i`-th validation or follow-up comes back,
a peer's share is added, or submitted where it clears the block target, or something happens to
the assembler. -/
inductive Event (Ctx : Type) where
  | submit (submission : Submission Ctx)
  | validated (i : ℕ) (now : ℚ) (vardiffChanged : Bool)
  | checked (i : ℕ)
  | addShare (call : Call)
  | collaborate (share : ShareBlock) (proof : PyStr)
  | assembler (e : Assembler.Event Ctx)

/-- One event, where it can happen. -/
def step (P : Params) (adapters : Adapters Ctx) (N : PoolNode Ctx) :
    Event Ctx → Option (PoolNode Ctx)
  | .submit submission => some (N.handleSubmit submission).1
  | .validated i now vardiffChanged =>
      N.validations[i]?.map fun v => finishValidation P adapters
        { N with validations := N.validations.eraseIdx i } v now vardiffChanged
  | .checked i =>
      N.followups[i]?.map fun f => finishFollowup adapters
        { N with followups := N.followups.eraseIdx i } f
  | .addShare call => some { N with chain := (P2Pearl.addShare P N.chain call).1 }
  | .collaborate share proof => some (N.collaborate adapters share proof)
  -- the assembler is called by a follow-up or a collaborative submission only
  | .assembler (.call _) => none
  | .assembler e =>
      (Assembler.step adapters.hooks N.assembler e).map fun assembler => { N with assembler }

/-- Every background task is done. -/
structure Drained (N : PoolNode Ctx) : Prop where
  validations : N.validations = []
  followups : N.followups = []
  waiting : N.assembler.waiting = []
  holder : N.assembler.holder = none

/-! ### What the functions do -/

section Spec

variable {P : Params} {adapters : Adapters Ctx} {N N' : PoolNode Ctx}

section HandleSubmit

variable {submission : Submission Ctx} {context : JobContext Ctx} {shareId : Hash32}
  (hcontext : submission.job.context = some context)
  (hid : context.candidate.shareId = .ok shareId)

include hcontext hid

/-- A submission for a share that is stored or being validated changes nothing. -/
lemma handleSubmit_of_known (h : N.Known shareId) :
    N.handleSubmit submission = (N, .ok ⟨true, none, some "duplicate"⟩) := by
  simp only [handleSubmit, hcontext, hid, if_pos h]

/-- Any other starts a validation. -/
lemma handleSubmit_of_not_known (h : ¬N.Known shareId) :
    N.handleSubmit submission = ({ N with
        pendingShares := insert shareId N.pendingShares
        validations := N.validations ++ [⟨submission, context, submission.job.incompleteHeader,
          targetToBits submission.job.shareTarget, shareId⟩] }, .ok ⟨true, none, none⟩) := by
  simp only [handleSubmit, hcontext, hid, if_neg h]

end HandleSubmit

/-- A submission adds at most a validation. -/
lemma handleSubmit_frame (N : PoolNode Ctx) (submission : Submission Ctx) :
    (N.handleSubmit submission).1.chain = N.chain
      ∧ N.validations ⊆ (N.handleSubmit submission).1.validations
      ∧ (N.handleSubmit submission).1.followups = N.followups
      ∧ (N.handleSubmit submission).1.assembler = N.assembler := by
  rw [handleSubmit]
  split
  · exact ⟨rfl, List.Subset.refl _, rfl, rfl⟩
  · split
    · exact ⟨rfl, List.Subset.refl _, rfl, rfl⟩
    · split_ifs
      · exact ⟨rfl, List.Subset.refl _, rfl, rfl⟩
      · exact ⟨rfl, List.subset_append_left _ _, rfl, rfl⟩

/-- A verified validation adds at most a share and a follow-up. -/
lemma addVerified_frame (P : Params) (broadcastShare : Bool) (N : PoolNode Ctx) (v : Validation Ctx)
    (now : ℚ) (vardiffChanged : Bool) :
    ((addVerified P broadcastShare N v now vardiffChanged).chain = N.chain
        ∨ ∃ call, (addVerified P broadcastShare N v now vardiffChanged).chain
          = (addShare P N.chain call).1)
      ∧ (addVerified P broadcastShare N v now vardiffChanged).validations = N.validations
      ∧ N.followups ⊆ (addVerified P broadcastShare N v now vardiffChanged).followups
      ∧ (addVerified P broadcastShare N v now vardiffChanged).assembler = N.assembler := by
  rw [addVerified]
  split
  · exact ⟨Or.inl rfl, rfl, List.Subset.refl _, rfl⟩
  · rename_i proof _
    split
    · rename_i heq
      exact ⟨Or.inr ⟨⟨v.context.candidate, true, some proof, now⟩, by rw [heq]⟩, rfl,
        List.subset_append_left _ _, rfl⟩
    · rename_i heq
      exact ⟨Or.inr ⟨⟨v.context.candidate, true, some proof, now⟩, by rw [heq]⟩, rfl,
        List.Subset.refl _, rfl⟩

lemma finishValidation_frame (P : Params) (adapters : Adapters Ctx) (N : PoolNode Ctx)
    (v : Validation Ctx) (now : ℚ) (vardiffChanged : Bool) :
    ((finishValidation P adapters N v now vardiffChanged).chain = N.chain
        ∨ ∃ call, (finishValidation P adapters N v now vardiffChanged).chain
          = (addShare P N.chain call).1)
      ∧ (finishValidation P adapters N v now vardiffChanged).validations = N.validations
      ∧ N.followups ⊆ (finishValidation P adapters N v now vardiffChanged).followups
      ∧ (finishValidation P adapters N v now vardiffChanged).assembler = N.assembler := by
  rw [finishValidation]
  split
  · exact addVerified_frame P adapters.broadcastShare N v now vardiffChanged
  · exact ⟨Or.inl rfl, rfl, List.Subset.refl _, rfl⟩

/-- A follow-up changes the line for the lock only, and gets in only a proof that clears. -/
lemma finishFollowup_frame (adapters : Adapters Ctx) (N : PoolNode Ctx) (f : Followup Ctx) :
    (finishFollowup adapters N f).chain = N.chain
      ∧ (finishFollowup adapters N f).validations = N.validations
      ∧ (finishFollowup adapters N f).followups = N.followups
      ∧ ((finishFollowup adapters N f).assembler = N.assembler
        ∨ ∃ a : Assembly Ctx, a.ClearsBlock adapters
          ∧ (finishFollowup adapters N f).assembler = N.assembler.call a) := by
  rw [finishFollowup]
  split
  · exact ⟨rfl, rfl, rfl, Or.inr ⟨_, ⟨f.headerBytes, ‹_›⟩, rfl⟩⟩
  · exact ⟨rfl, rfl, rfl, Or.inl rfl⟩

/-- A collaborative submission changes the line for the lock at most, and gets in only a proof that
clears. -/
lemma collaborate_cases (adapters : Adapters Ctx) (N : PoolNode Ctx) (share : ShareBlock)
    (proof : PyStr) :
    N.collaborate adapters share proof = N
      ∨ ∃ a : Assembly Ctx, a.ClearsBlock adapters
        ∧ N.collaborate adapters share proof = { N with assembler := N.assembler.call a } := by
  rw [collaborate]
  split
  · exact Or.inl rfl
  · split
    · rename_i context heq
      obtain ⟨headerBytes, hclears⟩ := clears_of_tryCollaborativeSubmit heq
      exact Or.inr ⟨_, ⟨headerBytes, hclears⟩, rfl⟩
    · exact Or.inl rfl

/-- What happens to the assembler leaves the rest of the node, and is not a call. -/
lemma step_assembler {e : Assembler.Event Ctx}
    (h : step P adapters N (.assembler e) = some N') : (∀ a, e ≠ .call a)
      ∧ ∃ A, Assembler.step adapters.hooks N.assembler e = some A
        ∧ { N with assembler := A } = N' := by
  cases e with
  | call a => cases h
  | _ => exact ⟨by simp, Option.map_eq_some_iff.mp h⟩

/-- An event leaves the chain as it is or adds a share to it. -/
lemma step_chain {e : Event Ctx} (hstep : PoolNode.step P adapters N e = some N') :
    N'.chain = N.chain ∨ ∃ call, N'.chain = (addShare P N.chain call).1 := by
  cases e with
  | submit submission =>
      cases hstep
      exact Or.inl (handleSubmit_frame N submission).1
  | validated i now vardiffChanged =>
      obtain ⟨v, -, rfl⟩ := Option.map_eq_some_iff.mp hstep
      exact (finishValidation_frame P adapters _ v now vardiffChanged).1
  | checked i =>
      obtain ⟨f, -, rfl⟩ := Option.map_eq_some_iff.mp hstep
      exact Or.inl (finishFollowup_frame adapters _ f).1
  | addShare call => cases hstep; exact Or.inr ⟨call, rfl⟩
  | collaborate share proof =>
      cases hstep
      rcases collaborate_cases adapters N share proof with heq | ⟨a, -, heq⟩
      · rw [heq]; exact Or.inl rfl
      · rw [heq]; exact Or.inl rfl
  | assembler e =>
      obtain ⟨-, A, -, rfl⟩ := step_assembler hstep
      exact Or.inl rfl

/-- A verified validation of a share the sharechain accepts. -/
lemma finishValidation_of_accepted {v : Validation Ctx} {now : ℚ} {chain : Sharechain}
    {isBestTip : Bool} {reason : String}
    (hverify : adapters.verifyShare v.headerBytes v.submission.plainProof v.shareNbits
      v.context.certVersion = .ok true)
    (hadd : addShare P N.chain ⟨v.context.candidate, true,
        some (v.submission.plainProof.map fun c => UInt8.ofNat c.toNat), now⟩
      = (chain, .ok ⟨true, isBestTip, reason⟩)) (vardiffChanged : Bool) :
    finishValidation P adapters N v now vardiffChanged = { N with
      chain
      pendingShares := N.pendingShares.erase v.shareId
      followups := N.followups ++ [⟨v.submission, v.context, v.headerBytes⟩]
      scheduled := .followup v.shareId
        :: ((if adapters.broadcastShare then [.shareGossip v.shareId] else [])
          ++ (if isBestTip || vardiffChanged then [.refresh] else []) ++ N.scheduled) } := by
  simp only [finishValidation, hverify, addVerified, encodeAscii_of_isAscii v.submission.ascii,
    hadd]

/-- A verified validation of a share the sharechain admits schedules its block check. -/
lemma followup_of_finishValidation (htip : N.chain.TipStored) {v : Validation Ctx} {now : ℚ}
    (hverify : adapters.verifyShare v.headerBytes v.submission.plainProof v.shareNbits
      v.context.certVersion = .ok true)
    (hvalid : validate P N.chain.entries.get v.context.candidate now = .ok none)
    (vardiffChanged : Bool) :
    ⟨v.submission, v.context, v.headerBytes⟩
      ∈ (finishValidation P adapters N v now vardiffChanged).followups := by
  obtain ⟨isBestTip, haccepted⟩ := addShare_of_valid (P := P) htip
    ⟨v.context.candidate, true, some _, now⟩ rfl hvalid
  rw [finishValidation_of_accepted hverify (Prod.ext rfl haccepted)]
  exact List.mem_append_right _ (List.mem_singleton.mpr rfl)

/-- A validation of a share that is not valid schedules nothing. -/
lemma followups_of_not_valid {v : Validation Ctx} {now : ℚ}
    (hvalid : validate P N.chain.entries.get v.context.candidate now ≠ .ok none)
    (vardiffChanged : Bool) :
    (finishValidation P adapters N v now vardiffChanged).followups = N.followups := by
  rw [finishValidation]
  split
  · rw [addVerified]
    split
    · rfl
    · rename_i proof _
      split
      · rename_i heq
        refine absurd ?_ hvalid
        rcases addShare_cases P N.chain ⟨v.context.candidate, true, some proof, now⟩ with
          ⟨r, hr, hnot, -⟩ | ⟨sid, e, hadm, -⟩
        · rw [heq] at hr
          cases hr
          cases (hnot _ rfl).1
        · exact validate_eq_ok_none_iff.mpr ⟨sid, hadm.id, hadm.valid⟩
      · rfl
  · rfl

end Spec

end PoolNode

end P2Pearl
