import P2Pearl.Data.Machine
import P2Pearl.Daemon.Job

/-!
`_assemble_and_submit` of `daemon.py`, and the concurrent calls of it.

* `tryCollaborativeSubmit`: what `try_collaborative_submit` calls it with.
* `Assembler`: the set of assembled parents, the calls in line for `_assemble_lock`, the call that
  holds it with the adapter it waits for, and a log of what was done, which the code does not keep.
* `Assembler.step`: one event between two awaits; `effect_of_step` lists what it can do, and
  `log_of_step` what it adds to the log.
-/

namespace P2Pearl

variable {Ctx : Type}

/-- A call of `_assemble_and_submit`. -/
structure Assembly (Ctx : Type) where
  context : JobContext Ctx
  plainProof : PyStr

/-- The parent tip of a call. -/
def Assembly.parent (a : Assembly Ctx) : Hash32 := a.context.candidate.parentPrevBlock

/-- `try_collaborative_submit`: the context it calls `_assemble_and_submit` with, or `None` where it
returns before.  `setCertVersion` is the assignment to `header_ctx["cert_version"]`. -/
def tryCollaborativeSubmit
    (makeHeaderFromShare : ShareBlock → Except PyError (Option (Bytes × Ctx)))
    (setCertVersion : Ctx → ℕ → Ctx) (verifyBlock : Bytes → PyStr → ℕ → Except PyError Bool)
    (template : Option ParentTemplate) (share : ShareBlock) (proof : PyStr) :
    Except PyError (Option (JobContext Ctx)) :=
  match template with
  | none => .ok none
  | some template =>
      if share.parentPrevBlock ≠ template.prevBlock then .ok none
      else do
        match ← makeHeaderFromShare share with
        | none => return none
        | some (headerBytes, headerCtx) =>
            let certVersion := template.requiredCertVersion
            let isBlock ← verifyBlock headerBytes proof certVersion
            if isBlock = false then return none
            else return some ⟨share, setCertVersion headerCtx certVersion, [], certVersion⟩

/-- A collaborative submission reaches the assembly with a proof the block verifier accepts. -/
lemma clears_of_tryCollaborativeSubmit
    {makeHeaderFromShare : ShareBlock → Except PyError (Option (Bytes × Ctx))}
    {setCertVersion : Ctx → ℕ → Ctx} {verifyBlock : Bytes → PyStr → ℕ → Except PyError Bool}
    {template : Option ParentTemplate} {share : ShareBlock} {proof : PyStr}
    {context : JobContext Ctx}
    (h : tryCollaborativeSubmit makeHeaderFromShare setCertVersion verifyBlock template share proof
      = .ok (some context)) :
    ∃ headerBytes, verifyBlock headerBytes proof context.certVersion = .ok true := by
  cases template with
  | none => cases h
  | some template =>
      rw [tryCollaborativeSubmit] at h
      split_ifs at h
      · cases h
      · obtain ⟨built, -, h⟩ := bind_eq_ok_iff.mp h
        cases built with
        | none => cases h
        | some built =>
            obtain ⟨isBlock, hverify, h⟩ := bind_eq_ok_iff.mp h
            cases isBlock with
            | false => cases h
            | true => cases h; exact ⟨built.1, hverify⟩

/-- The adapter the call that holds the lock waits for; the post hook runs whether or not the prover
has raised. -/
inductive Phase where
  | preAssemble
  | assembleBlock
  | postAssemble (block : Except PyError PyStr)
  | submitBlock (block : PyStr)
  | broadcastBlock

/-- What the calls do, and when `set_template` clears the assembled parents. -/
inductive Action (Ctx : Type) where
  | preAssemble (parent : Hash32)
  | assembleBlock (a : Assembly Ctx)
  | postAssemble (parent : Hash32)
  /-- `_submit_block` came back: it raised, or returned `null` or a reason. -/
  | submitBlock (parent : Hash32) (outcome : Except PyError (Option String))
  | broadcastBlock (parent : Hash32)
  | clear

/-- Which of the optional adapters a node has. -/
structure AssembleHooks where
  preAssemble : Bool
  postAssemble : Bool
  broadcastBlock : Bool

/-- The part of a `PoolNode` that assembles blocks. -/
structure Assembler (Ctx : Type) where
  template : Option ParentTemplate
  assembledParents : Finset Hash32
  /-- The calls that wait for `_assemble_lock`, which is fair. -/
  waiting : List (Assembly Ctx)
  /-- The call that holds the lock. -/
  holder : Option (Assembly Ctx × Phase)
  /-- What was done, newest first. -/
  log : List (Action Ctx)

namespace Assembler

/-- A new node. -/
def init : Assembler Ctx := ⟨none, ∅, [], none, []⟩

/-- `set_template`. -/
def setTemplate (A : Assembler Ctx) (template : ParentTemplate) : Assembler Ctx :=
  if some template.prevBlock ≠ A.template.map ParentTemplate.prevBlock then
    { A with template := some template, assembledParents := ∅, log := .clear :: A.log }
  else { A with template := some template }

/-- `_assemble_and_submit` is called: the call gets in line for the lock. -/
def call (A : Assembler Ctx) (a : Assembly Ctx) : Assembler Ctx :=
  { A with waiting := A.waiting ++ [a] }

/-- The lock is released. -/
def release (A : Assembler Ctx) : Assembler Ctx := { A with holder := none }

/-- The call `a` holds the lock and starts an adapter. -/
def enter (A : Assembler Ctx) (a : Assembly Ctx) (phase : Phase) (action : Option (Action Ctx)) :
    Assembler Ctx :=
  { A with holder := some (a, phase), log := action.toList ++ A.log }

/-- `_assemble_block` is started in a worker thread. -/
def assembleBlock (A : Assembler Ctx) (a : Assembly Ctx) : Assembler Ctx :=
  A.enter a .assembleBlock (some (.assembleBlock a))

/-- The body of `_assemble_and_submit` once the lock is held. -/
def locked (hooks : AssembleHooks) (A : Assembler Ctx) (a : Assembly Ctx) : Assembler Ctx :=
  if a.parent ∈ A.assembledParents then A
  else if hooks.preAssemble then A.enter a .preAssemble (some (.preAssemble a.parent))
  else A.assembleBlock a

/-- After the `finally`: the exception of the prover is raised, or its block submitted. -/
def submitBlock (A : Assembler Ctx) (a : Assembly Ctx) : Except PyError PyStr → Assembler Ctx
  | .error _ => A.release
  | .ok block => A.enter a (.submitBlock block) none

/-- The prover is done. -/
def assembled (hooks : AssembleHooks) (A : Assembler Ctx) (a : Assembly Ctx)
    (block : Except PyError PyStr) : Assembler Ctx :=
  if hooks.postAssemble then A.enter a (.postAssemble block) (some (.postAssemble a.parent))
  else A.submitBlock a block

/-- The submission came back: unless it has raised, the parent is marked. -/
def submitted (hooks : AssembleHooks) (A : Assembler Ctx) (a : Assembly Ctx)
    (outcome : Except PyError (Option String)) : Assembler Ctx :=
  let A := { A with log := .submitBlock a.parent outcome :: A.log }
  match outcome with
  | .error _ => A.release
  | .ok _ =>
      let A := { A with assembledParents := insert a.parent A.assembledParents }
      if hooks.broadcastBlock then A.enter a .broadcastBlock (some (.broadcastBlock a.parent))
      else A.release

/-- What can happen: a template arrives, a call is made, the lock is taken, an awaited adapter comes
back. -/
inductive Event (Ctx : Type) where
  | setTemplate (template : ParentTemplate)
  | call (a : Assembly Ctx)
  | acquire
  | preAssembled (result : Except PyError Unit)
  | assembled (block : Except PyError PyStr)
  | postAssembled (result : Except PyError Unit)
  | submitted (outcome : Except PyError (Option String))
  | broadcasted (result : Except PyError Unit)

/-- One event, where it can happen. -/
def step (hooks : AssembleHooks) (A : Assembler Ctx) (e : Event Ctx) : Option (Assembler Ctx) :=
  match e, A.holder, A.waiting with
  | .setTemplate template, _, _ => some (A.setTemplate template)
  | .call a, _, _ => some (A.call a)
  | .acquire, none, a :: rest => some (locked hooks { A with waiting := rest } a)
  | .preAssembled (.ok _), some (a, .preAssemble), _ => some (A.assembleBlock a)
  | .preAssembled (.error _), some (_, .preAssemble), _ => some A.release
  | .assembled block, some (a, .assembleBlock), _ => some (A.assembled hooks a block)
  | .postAssembled (.ok _), some (a, .postAssemble block), _ => some (A.submitBlock a block)
  | .postAssembled (.error _), some (_, .postAssemble _), _ => some A.release
  | .submitted outcome, some (a, .submitBlock _), _ => some (A.submitted hooks a outcome)
  | .broadcasted _, some (_, .broadcastBlock), _ => some A.release
  | _, _, _ => none

/-- What one event does, by the adapter that comes back. -/
inductive Effect (hooks : AssembleHooks) (A : Assembler Ctx) : Event Ctx → Assembler Ctx → Prop
  | setTemplate (template : ParentTemplate) :
      Effect hooks A (.setTemplate template) (A.setTemplate template)
  | call (a : Assembly Ctx) : Effect hooks A (.call a) (A.call a)
  | acquire (a : Assembly Ctx) (rest : List (Assembly Ctx)) (free : A.holder = none)
      (first : A.waiting = a :: rest) :
      Effect hooks A .acquire (locked hooks { A with waiting := rest } a)
  | preAssembled (a : Assembly Ctx) (held : A.holder = some (a, .preAssemble)) (u : Unit) :
      Effect hooks A (.preAssembled (.ok u)) (A.assembleBlock a)
  | preRaised (a : Assembly Ctx) (held : A.holder = some (a, .preAssemble)) (error : PyError) :
      Effect hooks A (.preAssembled (.error error)) A.release
  | assembled (a : Assembly Ctx) (held : A.holder = some (a, .assembleBlock))
      (block : Except PyError PyStr) :
      Effect hooks A (.assembled block) (A.assembled hooks a block)
  | postAssembled (a : Assembly Ctx) (block : Except PyError PyStr)
      (held : A.holder = some (a, .postAssemble block)) (u : Unit) :
      Effect hooks A (.postAssembled (.ok u)) (A.submitBlock a block)
  | postRaised (a : Assembly Ctx) (block : Except PyError PyStr)
      (held : A.holder = some (a, .postAssemble block)) (error : PyError) :
      Effect hooks A (.postAssembled (.error error)) A.release
  | submitted (a : Assembly Ctx) (block : PyStr) (held : A.holder = some (a, .submitBlock block))
      (outcome : Except PyError (Option String)) :
      Effect hooks A (.submitted outcome) (A.submitted hooks a outcome)
  | broadcasted (a : Assembly Ctx) (held : A.holder = some (a, .broadcastBlock))
      (result : Except PyError Unit) : Effect hooks A (.broadcasted result) A.release

variable {hooks : AssembleHooks} {A A' : Assembler Ctx} {e : Event Ctx}

/-- **An event**: it can happen in ten ways. -/
lemma effect_of_step (h : step hooks A e = some A') : Effect hooks A e A' := by
  unfold step at h
  split at h
  · cases h; exact .setTemplate _
  · cases h; exact .call _
  · cases h; exact .acquire _ _ ‹_› ‹_›
  · cases h; exact .preAssembled _ ‹_› _
  · cases h; exact .preRaised _ ‹_› _
  · cases h; exact .assembled _ ‹_› _
  · cases h; exact .postAssembled _ _ ‹_› _
  · cases h; exact .postRaised _ _ ‹_› _
  · cases h; exact .submitted _ _ ‹_› _
  · cases h; exact .broadcasted _ ‹_› _
  · cases h

/-! ### The log -/

/-- What an event adds to the log; a submission is only logged by its own event. -/
lemma log_of_step (hstep : step hooks A e = some A') : ∃ actions, A'.log = actions ++ A.log
    ∧ ∀ p outcome, .submitBlock p outcome ∈ actions → e = .submitted outcome := by
  cases effect_of_step hstep with
  | setTemplate template =>
      rw [setTemplate]
      split_ifs
      · exact ⟨[.clear], rfl, by simp⟩
      · exact ⟨[], rfl, by simp⟩
  | call a => exact ⟨[], rfl, by simp⟩
  | acquire a rest free first =>
      rw [locked]
      split_ifs
      · exact ⟨[], rfl, by simp⟩
      · exact ⟨[.preAssemble a.parent], rfl, by simp⟩
      · exact ⟨[.assembleBlock a], rfl, by simp⟩
  | preAssembled a held u => exact ⟨[.assembleBlock a], rfl, by simp⟩
  | preRaised a held error => exact ⟨[], rfl, by simp⟩
  | assembled a held block =>
      rw [assembled]
      split_ifs
      · exact ⟨[.postAssemble a.parent], rfl, by simp⟩
      · cases block <;> exact ⟨[], rfl, by simp⟩
  | postAssembled a block held u => cases block <;> exact ⟨[], rfl, by simp⟩
  | postRaised a block held error => exact ⟨[], rfl, by simp⟩
  | submitted a block held outcome =>
      cases outcome with
      | error error => exact ⟨[.submitBlock a.parent (.error error)], rfl, by simp⟩
      | ok result =>
          rw [submitted]
          simp only
          split_ifs
          · exact ⟨[.broadcastBlock a.parent, .submitBlock a.parent (.ok result)], rfl, by simp⟩
          · exact ⟨[.submitBlock a.parent (.ok result)], rfl, by simp⟩
  | broadcasted a held result => exact ⟨[], rfl, by simp⟩

/-- A submission is logged when its event happens. -/
lemma submitBlock_mem_log (hstep : step hooks A e = some A') {p : Hash32}
    {outcome : Except PyError (Option String)} (h : .submitBlock p outcome ∈ A'.log) :
    .submitBlock p outcome ∈ A.log ∨ e = .submitted outcome := by
  obtain ⟨actions, hlog, hsubmit⟩ := log_of_step hstep
  rw [hlog, List.mem_append] at h
  exact h.symm.imp_right (hsubmit p outcome)

/-- What was done stays logged. -/
lemma log_subset (hstep : step hooks A e = some A') : A.log ⊆ A'.log := by
  obtain ⟨actions, hlog, -⟩ := log_of_step hstep
  rw [hlog]
  exact List.subset_append_right _ _

end Assembler

end P2Pearl
