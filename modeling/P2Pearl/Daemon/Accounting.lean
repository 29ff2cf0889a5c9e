import P2Pearl.Daemon.FoundBlock

/-!
The books of the submit pipeline.

* `Pipeline`: a node with a record of its completed validations, which the code does not keep.  Each
  event comes with the share verifier as it behaves at that moment, so that verdicts are arbitrary.
* `Effect`: what an event can do to the pending shares, the validations and what is scheduled.
* `Booked`: the pending shares are those being validated, each once, every validation is of a job
  the node handed out, and what is scheduled is what was accepted; `Booked.step` says that every
  event keeps it.
* `submit_accounting`: so it holds in every run.
-/

namespace P2Pearl

variable {Ctx : Type}

/-- The behaviour of `verify_share`. -/
abbrev ShareVerifier : Type := Bytes → PyStr → ℕ → ℕ → Except PyError Bool

/-- The call of `add_share` for a verified validation. -/
def Validation.call (v : Validation Ctx) (now : ℚ) : Call :=
  ⟨v.context.candidate, true, some (v.submission.plainProof.map fun c => UInt8.ofNat c.toNat), now⟩

/-- A validation that has come to its end: what `verify_share` returned or raised for it, and
what `add_share` did, if it was called. -/
structure Completion (Ctx : Type) where
  validation : Validation Ctx
  verdict : Except PyError Bool
  added : Option (Except PyError AddResult)

/-- The completion of a validation. -/
def Validation.complete (v : Validation Ctx) (P : Params) (C : Sharechain)
    (verifyShare : ShareVerifier) (now : ℚ) : Completion Ctx :=
  let verdict := verifyShare v.headerBytes v.submission.plainProof v.shareNbits
    v.context.certVersion
  ⟨v, verdict, match verdict with
    | .ok true => some (addShare P C (v.call now)).2
    | _ => none⟩

/-- The sharechain accepted the share. -/
def Completion.accepted (c : Completion Ctx) : Bool :=
  match c.added with
  | some (.ok r) => r.accepted
  | _ => false

/-- A node with its completed validations, newest first. -/
structure Pipeline (Ctx : Type) where
  node : PoolNode Ctx
  completions : List (Completion Ctx)

namespace Pipeline

/-- A new node. -/
def init : Pipeline Ctx := ⟨.init, []⟩

/-- The validation an event completes. -/
def completed (P : Params) (N : PoolNode Ctx) (verifyShare : ShareVerifier) :
    PoolNode.Event Ctx → Option (Completion Ctx)
  | .validated i now _ => N.validations[i]?.map fun v => v.complete P N.chain verifyShare now
  | _ => none

/-- One event of the node, with the share verifier as it behaves then. -/
def step (P : Params) (adapters : Adapters Ctx) (S : Pipeline Ctx)
    (x : ShareVerifier × PoolNode.Event Ctx) : Option (Pipeline Ctx) :=
  (PoolNode.step P { adapters with verifyShare := x.1 } S.node x.2).map fun N =>
    ⟨N, (completed P S.node x.1 x.2).toList ++ S.completions⟩

/-- How often the sharechain accepted the share from this path. -/
def acceptances (S : Pipeline Ctx) (shareId : Hash32) : ℕ :=
  S.completions.countP fun c => c.validation.shareId = shareId ∧ c.accepted

end Pipeline

namespace PoolNode

variable {P : Params} {adapters : Adapters Ctx} {N N' : PoolNode Ctx}

/-- The validation that `handle_submit` starts. -/
def validationFor (submission : Submission Ctx) (context : JobContext Ctx) (shareId : Hash32) :
    Validation Ctx :=
  ⟨submission, context, submission.job.incompleteHeader, targetToBits submission.job.shareTarget,
    shareId⟩

/-- What an event can do to the books: start a validation, complete one, or neither. -/
inductive Effect (P : Params) (adapters : Adapters Ctx) (N N' : PoolNode Ctx) :
    Event Ctx → Prop
  | started (submission : Submission Ctx) (context : JobContext Ctx) (shareId : Hash32)
      (job : submission.job.context = some context)
      (id : context.candidate.shareId = .ok shareId) (fresh : ¬N.Known shareId)
      (after : N' = { N with
        pendingShares := insert shareId N.pendingShares
        validations := N.validations ++ [validationFor submission context shareId] }) :
      Effect P adapters N N' (.submit submission)
  | completed (i : ℕ) (now : ℚ) (vardiffChanged : Bool) (v : Validation Ctx)
      (mem : N.validations[i]? = some v)
      (after : N' = finishValidation P adapters
        { N with validations := N.validations.eraseIdx i } v now vardiffChanged) :
      Effect P adapters N N' (.validated i now vardiffChanged)
  | elsewhere {e : Event Ctx} (other : ∀ i now vardiffChanged, e ≠ .validated i now vardiffChanged)
      (pending : N'.pendingShares = N.pendingShares)
      (validations : N'.validations = N.validations) (scheduled : N'.scheduled = N.scheduled)
      (chain : N'.chain = N.chain ∨ ∃ call, e = .addShare call
        ∧ N'.chain = (addShare P N.chain call).1) :
      Effect P adapters N N' e

lemma effect_of_step {e : Event Ctx} (hstep : PoolNode.step P adapters N e = some N') :
    Effect P adapters N N' e := by
  cases e with
  | submit submission =>
      cases hstep
      have hsame : (N.handleSubmit submission).1 = N →
          Effect P adapters N (N.handleSubmit submission).1 (.submit submission) := fun heq =>
        .elsewhere (fun _ _ _ h => by cases h) (by rw [heq]) (by rw [heq]) (by rw [heq])
          (Or.inl (by rw [heq]))
      cases hcontext : submission.job.context with
      | none => exact hsame (by simp only [handleSubmit, hcontext])
      | some context =>
          cases hid : context.candidate.shareId with
          | error err => exact hsame (by simp only [handleSubmit, hcontext, hid])
          | ok shareId =>
              by_cases hknown : N.Known shareId
              · exact hsame (by rw [handleSubmit_of_known hcontext hid hknown])
              · exact .started submission context shareId hcontext hid hknown
                  (by rw [handleSubmit_of_not_known hcontext hid hknown]; rfl)
  | validated i now vardiffChanged =>
      obtain ⟨v, hv, rfl⟩ := Option.map_eq_some_iff.mp hstep
      exact .completed i now vardiffChanged v hv rfl
  | checked i =>
      obtain ⟨f, -, rfl⟩ := Option.map_eq_some_iff.mp hstep
      refine .elsewhere (fun _ _ _ h => by cases h) ?_ ?_ ?_ (Or.inl ?_) <;>
        (rw [finishFollowup]; split <;> rfl)
  | addShare call =>
      cases hstep
      exact .elsewhere (fun _ _ _ h => by cases h) rfl rfl rfl (Or.inr ⟨call, rfl, rfl⟩)
  | collaborate share proof =>
      cases hstep
      rcases collaborate_cases adapters N share proof with heq | ⟨a, -, heq⟩
      · exact .elsewhere (fun _ _ _ h => by cases h) (by rw [heq]) (by rw [heq]) (by rw [heq])
          (Or.inl (by rw [heq]))
      · exact .elsewhere (fun _ _ _ h => by cases h) (by rw [heq]) (by rw [heq]) (by rw [heq])
          (Or.inl (by rw [heq]))
  | assembler e =>
      obtain ⟨-, A, -, rfl⟩ := step_assembler hstep
      exact .elsewhere (fun _ _ _ h => by cases h) rfl rfl rfl (Or.inl rfl)

/-- A completed validation: the share is added where the proof is verified, and where the chain
accepts it, one gossip and one block check are scheduled for it, and maybe a refresh. -/
lemma finishValidation_books (P : Params) (adapters : Adapters Ctx) (N : PoolNode Ctx)
    (v : Validation Ctx) (now : ℚ) (vardiffChanged : Bool) :
    (finishValidation P adapters N v now vardiffChanged).pendingShares
        = N.pendingShares.erase v.shareId
      ∧ ((finishValidation P adapters N v now vardiffChanged).chain = N.chain
        ∨ (v.complete P N.chain adapters.verifyShare now).verdict = .ok true
          ∧ (finishValidation P adapters N v now vardiffChanged).chain
            = (addShare P N.chain (v.call now)).1)
      ∧ if (v.complete P N.chain adapters.verifyShare now).accepted then
          ∃ refreshes, (∀ x ∈ refreshes, x = Scheduled.refresh)
            ∧ (finishValidation P adapters N v now vardiffChanged).scheduled
              = .followup v.shareId
                :: ((if adapters.broadcastShare then [.shareGossip v.shareId] else [])
                  ++ refreshes ++ N.scheduled)
        else (finishValidation P adapters N v now vardiffChanged).scheduled = N.scheduled := by
  cases hverdict : adapters.verifyShare v.headerBytes v.submission.plainProof v.shareNbits
    v.context.certVersion with
  | error err => simp [finishValidation, Validation.complete, Completion.accepted, hverdict]
  | ok verified =>
      cases verified with
      | false => simp [finishValidation, Validation.complete, Completion.accepted, hverdict]
      | true =>
          have hcall : (⟨v.context.candidate, true,
              some (v.submission.plainProof.map fun c => UInt8.ofNat c.toNat), now⟩ : Call)
              = v.call now := rfl
          simp only [finishValidation, Validation.complete, Completion.accepted, hverdict,
            addVerified, encodeAscii_of_isAscii v.submission.ascii, hcall]
          rcases addShare P N.chain (v.call now) with ⟨chain, err | ⟨accepted, isBestTip, reason⟩⟩
          · simp
          · cases accepted with
            | false => simp
            | true =>
                refine ⟨rfl, Or.inr ⟨trivial, rfl⟩,
                  if isBestTip || vardiffChanged then [.refresh] else [], fun x hx => ?_, rfl⟩
                split_ifs at hx
                · exact List.mem_singleton.mp hx
                · exact absurd hx List.not_mem_nil

end PoolNode

namespace Pipeline

variable {P : Params} {adapters : Adapters Ctx} {S S' : Pipeline Ctx}

/-- What holds of the books in every run. -/
structure Booked (adapters : Adapters Ctx) (S : Pipeline Ctx) : Prop where
  /-- The pending shares are those being validated. -/
  pending : S.node.pendingShares = (S.node.validations.map Validation.shareId).toFinset
  /-- No share is validated twice at a time. -/
  nodup : (S.node.validations.map Validation.shareId).Nodup
  /-- A validation checks the proof of a submission for the header of its job. -/
  ofJob : ∀ v ∈ S.node.validations, v.submission.job.context = some v.context
    ∧ v.context.candidate.shareId = .ok v.shareId
    ∧ v = PoolNode.validationFor v.submission v.context v.shareId
  followups : ∀ shareId,
    S.node.scheduled.count (.followup shareId) = S.acceptances shareId
  gossips : ∀ shareId, S.node.scheduled.count (.shareGossip shareId)
    = if adapters.broadcastShare then S.acceptances shareId else 0

lemma Booked.init : Booked adapters (init : Pipeline Ctx) := by
  refine ⟨rfl, List.nodup_nil, fun v hv => absurd hv List.not_mem_nil, fun _ => rfl, fun _ => ?_⟩
  split_ifs <;> rfl

/-- The keys left when an entry is taken out of a list in which every key occurs once. -/
lemma map_eraseIdx_of_nodup {α β : Type} [DecidableEq β] {f : α → β} {l : List α}
    (h : (l.map f).Nodup) {i : ℕ} {a : α} (hi : l[i]? = some a) :
    (l.eraseIdx i).map f = (l.map f).erase (f a) := by
  obtain ⟨hlt, rfl⟩ := List.getElem?_eq_some_iff.mp hi
  have hmap : i < (l.map f).length := by rwa [List.length_map]
  rw [← List.eraseIdx_map, ← h.erase_getElem i hmap, List.getElem_map]

/-- One more completion is one more acceptance where the chain accepted the share. -/
lemma acceptances_cons (S : Pipeline Ctx) (N : PoolNode Ctx) (c : Completion Ctx)
    (shareId : Hash32) :
    acceptances ⟨N, c :: S.completions⟩ shareId = S.acceptances shareId
      + if c.validation.shareId = shareId ∧ c.accepted then 1 else 0 := by
  simp [acceptances, List.countP_cons]

/-- What a completion adds to the counts of the gossips and of the block checks. -/
lemma count_scheduled {c : Completion Ctx} {broadcastShare : Bool}
    {before after : List Scheduled} {shareId : Hash32}
    (h : if c.accepted then ∃ refreshes, (∀ x ∈ refreshes, x = Scheduled.refresh)
        ∧ after = .followup c.validation.shareId
          :: ((if broadcastShare then [.shareGossip c.validation.shareId] else [])
            ++ refreshes ++ before)
      else after = before) :
    after.count (.followup shareId) = before.count (.followup shareId)
        + (if c.validation.shareId = shareId ∧ c.accepted then 1 else 0)
      ∧ after.count (.shareGossip shareId) = before.count (.shareGossip shareId)
        + if broadcastShare then
            (if c.validation.shareId = shareId ∧ c.accepted then 1 else 0) else 0 := by
  by_cases haccepted : c.accepted
  · rw [if_pos haccepted] at h
    obtain ⟨refreshes, hall, rfl⟩ := h
    have hfollowup : refreshes.count (.followup shareId) = 0 :=
      List.count_eq_zero.mpr fun hmem => by cases hall _ hmem
    have hgossip : refreshes.count (.shareGossip shareId) = 0 :=
      List.count_eq_zero.mpr fun hmem => by cases hall _ hmem
    cases broadcastShare <;>
      simp [List.count_cons, hfollowup, hgossip, haccepted, Nat.add_comm]
  · rw [if_neg haccepted] at h
    simp [h, haccepted]

/-- **Every event keeps the books.** -/
lemma Booked.step {x : ShareVerifier × PoolNode.Event Ctx} (h : S.Booked adapters)
    (hstep : Pipeline.step P adapters S x = some S') : S'.Booked adapters := by
  obtain ⟨verifyShare, e⟩ := x
  obtain ⟨N, hN, rfl⟩ := Option.map_eq_some_iff.mp hstep
  cases PoolNode.effect_of_step hN with
  | started submission context shareId job id fresh after =>
      subst after
      have hpending : shareId ∉ S.node.pendingShares := fun hmem => fresh (Or.inr hmem)
      rw [h.pending, List.mem_toFinset] at hpending
      refine ⟨?_, ?_, ?_, h.followups, h.gossips⟩
      · rw [List.map_append, List.toFinset_append, h.pending]
        ext k
        simp [PoolNode.validationFor]
      · rw [List.map_append]
        refine List.nodup_append.mpr ⟨h.nodup, List.nodup_singleton _, fun a ha b hb => ?_⟩
        rw [List.mem_map] at hb
        obtain ⟨v, hv, rfl⟩ := hb
        rw [List.mem_singleton.mp hv]
        rintro rfl
        exact hpending ha
      · intro v hv
        rcases List.mem_append.mp hv with hv | hv
        · exact h.ofJob v hv
        · rw [List.mem_singleton.mp hv]
          exact ⟨job, id, rfl⟩
  | completed i now vardiffChanged v mem after =>
      subst after
      have hkeys := map_eraseIdx_of_nodup h.nodup mem
      obtain ⟨hpending, -, hscheduled⟩ := PoolNode.finishValidation_books P
        { adapters with verifyShare } { S.node with validations := S.node.validations.eraseIdx i }
        v now vardiffChanged
      have hvalidations := (PoolNode.finishValidation_frame P { adapters with verifyShare }
        { S.node with validations := S.node.validations.eraseIdx i } v now vardiffChanged).2.1
      have hcompleted : completed P S.node verifyShare (.validated i now vardiffChanged)
          = some (v.complete P S.node.chain verifyShare now) := by
        rw [completed, mem]
        rfl
      refine ⟨?_, ?_, ?_, fun shareId => ?_, fun shareId => ?_⟩
      · rw [hpending, hvalidations, hkeys]
        ext k
        rw [Finset.mem_erase, List.mem_toFinset, h.nodup.mem_erase_iff, ← List.mem_toFinset,
          ← h.pending]
      · rw [hvalidations, hkeys]
        exact h.nodup.erase _
      · rw [hvalidations]
        exact fun w hw => h.ofJob w (List.mem_of_mem_eraseIdx hw)
      · rw [hcompleted, Option.toList_some, List.singleton_append, acceptances_cons,
          ← h.followups shareId]
        exact (count_scheduled hscheduled).1
      · rw [hcompleted, Option.toList_some, List.singleton_append, acceptances_cons]
        refine (count_scheduled hscheduled).2.trans ?_
        rw [h.gossips shareId]
        split_ifs <;> rfl
  | elsewhere other pending validations scheduled chain =>
      have hnone : completed P S.node verifyShare e = none := by
        cases e with
        | validated i now vardiffChanged => exact absurd rfl (other i now vardiffChanged)
        | _ => rfl
      refine ⟨?_, ?_, ?_, fun shareId => ?_, fun shareId => ?_⟩
      · rw [pending, validations]
        exact h.pending
      · rw [validations]
        exact h.nodup
      · rw [validations]
        exact h.ofJob
      · rw [scheduled, hnone]
        exact h.followups shareId
      · rw [scheduled, hnone]
        exact h.gossips shareId

/-- An event adds a share to the chain only if it is a share of a peer, or a validation for which
`verify_share` returned `True`. -/
lemma verified_of_step {x : ShareVerifier × PoolNode.Event Ctx} (h : S.Booked adapters)
    (hstep : Pipeline.step P adapters S x = some S') (hchain : S'.node.chain ≠ S.node.chain) :
    (∃ call, x.2 = .addShare call ∧ S'.node.chain = (addShare P S.node.chain call).1)
      ∨ ∃ i now vardiffChanged v, x.2 = .validated i now vardiffChanged
        ∧ S.node.validations[i]? = some v ∧ v.submission.job.context = some v.context
        ∧ x.1 v.submission.job.incompleteHeader v.submission.plainProof
            (targetToBits v.submission.job.shareTarget) v.context.certVersion = .ok true
        ∧ S'.node.chain = (addShare P S.node.chain (v.call now)).1 := by
  obtain ⟨verifyShare, e⟩ := x
  obtain ⟨N, hN, rfl⟩ := Option.map_eq_some_iff.mp hstep
  cases PoolNode.effect_of_step hN with
  | started submission context shareId job id fresh after => exact absurd (by rw [after]) hchain
  | completed i now vardiffChanged v mem after =>
      subst after
      obtain ⟨-, hadded, -⟩ := PoolNode.finishValidation_books P
        { adapters with verifyShare } { S.node with validations := S.node.validations.eraseIdx i }
        v now vardiffChanged
      rcases hadded with hsame | ⟨hverdict, hadd⟩
      · exact absurd hsame hchain
      · obtain ⟨hcontext, -, hv⟩ := h.ofJob v (List.mem_of_getElem? mem)
        refine Or.inr ⟨i, now, vardiffChanged, v, rfl, mem, hcontext, ?_, hadd⟩
        have hheader : v.headerBytes = v.submission.job.incompleteHeader := by rw [hv]; rfl
        have hnbits : v.shareNbits = targetToBits v.submission.job.shareTarget := by rw [hv]; rfl
        rw [← hheader, ← hnbits]
        exact hverdict
  | elsewhere other pending validations scheduled chain =>
      rcases chain with hsame | ⟨call, he, hadd⟩
      · exact absurd hsame hchain
      · exact Or.inl ⟨call, he, hadd⟩

/-- Every run keeps the books. -/
lemma Booked.run {events : List (ShareVerifier × PoolNode.Event Ctx)}
    (hrun : Machine.run (Pipeline.step P adapters) .init events = some S) : S.Booked adapters :=
  Machine.run_preserves (fun _ _ _ hs h => h.step hs) Booked.init hrun

/-- **The submit pipeline keeps its books.**  In every run of submissions, completed validations
with arbitrary verdicts and additions by others, the pending shares are exactly those with a
validation in flight, no share has two, a share is added only by a peer or after `verify_share`
returned `True` for the submitted proof on the header, the compact target and the certificate
version of the job, and for every share as many broadcasts and as many block checks are
scheduled as `add_share` accepted it from this path. -/
theorem submit_accounting (P : Params) (adapters : Adapters Ctx)
    (events : List (ShareVerifier × PoolNode.Event Ctx)) (S : Pipeline Ctx)
    (hrun : Machine.run (Pipeline.step P adapters) .init events = some S) :
    S.node.pendingShares = (S.node.validations.map Validation.shareId).toFinset
      ∧ (S.node.validations.map Validation.shareId).Nodup
      ∧ (∀ x S', Pipeline.step P adapters S x = some S' → S'.node.chain ≠ S.node.chain →
        (∃ call, x.2 = .addShare call ∧ S'.node.chain = (addShare P S.node.chain call).1)
          ∨ ∃ i now vardiffChanged v, x.2 = .validated i now vardiffChanged
            ∧ S.node.validations[i]? = some v ∧ v.submission.job.context = some v.context
            ∧ x.1 v.submission.job.incompleteHeader v.submission.plainProof
                (targetToBits v.submission.job.shareTarget) v.context.certVersion = .ok true
            ∧ S'.node.chain = (addShare P S.node.chain (v.call now)).1)
      ∧ ∀ shareId, S.node.scheduled.count (.followup shareId) = S.acceptances shareId
        ∧ S.node.scheduled.count (.shareGossip shareId)
          = if adapters.broadcastShare then S.acceptances shareId else 0 := by
  have hbooked := Booked.run hrun
  exact ⟨hbooked.pending, hbooked.nodup, fun x S' hstep hchain =>
    verified_of_step hbooked hstep hchain, fun shareId =>
    ⟨hbooked.followups shareId, hbooked.gossips shareId⟩⟩

/-- A share that is accepted has one follow-up. -/
theorem submit_accounting_first : ∃ S : Pipeline Unit,
    Machine.run (Pipeline.step {} (oneProof zeroProof)) .init
        [(fun _ _ _ _ => .ok true, .submit (firstSubmission zeroProof (by decide))),
          (fun _ _ _ _ => .ok true, .validated 0 0 false)] = some S
      ∧ S.acceptances (doubleSha256 firstCandidate.wire) = 1
      ∧ S.node.scheduled.count (.followup (doubleSha256 firstCandidate.wire)) = 1 := by
  let v := firstValidation zeroProof (by decide)
  let busy := PoolNode.validatingFirst .init zeroProof (by decide)
  have hbusy : Pipeline.step {} (oneProof zeroProof) .init
      (fun _ _ _ _ => .ok true, .submit (firstSubmission zeroProof (by decide)))
      = some ⟨busy, []⟩ := by
    have hsubmit := handleSubmit_firstSubmission (N := .init) rfl rfl zeroProof (by decide)
    exact congrArg (fun N => some (⟨N, []⟩ : Pipeline Unit)) hsubmit
  have hadd : (addShare {} .empty (v.call 0)).2 = .ok ⟨true, true, ""⟩ :=
    congrArg Prod.snd PoolNode.addShare_firstCandidate
  let done : Pipeline Unit :=
    ⟨PoolNode.finishValidation {} { oneProof zeroProof with verifyShare := fun _ _ _ _ => .ok true }
      { busy with validations := [] } v 0 false,
      [v.complete {} .empty (fun _ _ _ _ => .ok true) 0]⟩
  have hrun : Machine.run (Pipeline.step {} (oneProof zeroProof)) .init
      [(fun _ _ _ _ => .ok true, .submit (firstSubmission zeroProof (by decide))),
        (fun _ _ _ _ => .ok true, .validated 0 0 false)] = some done :=
    Machine.run_cons_eq_some_iff.mpr ⟨_, hbusy, Machine.run_cons_eq_some_iff.mpr ⟨_, rfl, rfl⟩⟩
  have hone : done.acceptances (doubleSha256 firstCandidate.wire) = 1 := by
    have hid : v.shareId = doubleSha256 firstCandidate.wire := rfl
    simp [Pipeline.acceptances, Validation.complete, Completion.accepted, hadd, done, hid]
  refine ⟨done, hrun, hone, ?_⟩
  rw [((submit_accounting {} (oneProof zeroProof) _ _ hrun).2.2.2 _).1]
  exact hone

end Pipeline

end P2Pearl
