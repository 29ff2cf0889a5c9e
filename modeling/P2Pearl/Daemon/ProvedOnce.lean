import P2Pearl.Daemon.FoundBlock

/-!
Whether a block of a parent is proved and submitted once.

* `Assembler.Bracketed`: the log of the prover is a sequence of rounds, each with its hooks around
  one start of the prover; `starts_of_step`: the prover is started once between two returns.
* `Assembler.Once`: nothing is proved or submitted for a parent after a submission for it has
  returned; `Assembler.Unobstructed`: no call for another parent is at the prover while one for the
  current parent waits.
* `Assembler.Orderly`: the event keeps both; `Pristine.step` says so, and
  `orderly_of_once` that nothing less does where there is no pre hook.
* `proved_once`: so both hold in every run whose events are all orderly.
* `proved_twice`: a run in which a follow-up comes late.
-/

namespace P2Pearl

variable {Ctx : Type}

/-! ### Rounds of the prover -/

namespace Action

/-- The prover or one of its hooks is started. -/
def aroundProver : Action Ctx → Bool
  | .preAssemble _ | .assembleBlock _ | .postAssemble _ => true
  | _ => false

/-- The prover is started. -/
def startsProver : Action Ctx → Bool
  | .assembleBlock _ => true
  | _ => false

/-- The parent a block is proved or submitted for. -/
def worksOn : Action Ctx → Option Hash32
  | .assembleBlock a => some a.parent
  | .submitBlock p _ => some p
  | _ => none

/-- The parent a submission has returned for. -/
def done : Action Ctx → Option Hash32
  | .submitBlock p (.ok _) => some p
  | _ => none

end Action

namespace AssembleHooks

/-- The pre hook, where there is one. -/
def pre (hooks : AssembleHooks) (p : Hash32) : List (Action Ctx) :=
  if hooks.preAssemble then [.preAssemble p] else []

/-- The post hook, where there is one. -/
def post (hooks : AssembleHooks) (p : Hash32) : List (Action Ctx) :=
  if hooks.postAssemble then [.postAssemble p] else []

end AssembleHooks

/-- A round: the prover between its hooks, or a pre hook that has raised. -/
inductive Round (hooks : AssembleHooks) : List (Action Ctx) → Prop
  | raised (p : Hash32) : Round hooks [.preAssemble p]
  | proved (a : Assembly Ctx) :
      Round hooks (hooks.pre a.parent ++ [.assembleBlock a] ++ hooks.post a.parent)

namespace Assembler

variable {hooks : AssembleHooks} {A A' : Assembler Ctx} {e : Event Ctx}

/-- The starts of the prover and its hooks, oldest first. -/
def proverLog (A : Assembler Ctx) : List (Action Ctx) := (A.log.filter Action.aroundProver).reverse

/-- The round that is not over. -/
def openRound (hooks : AssembleHooks) (A : Assembler Ctx) : List (Action Ctx) :=
  match A.holder with
  | some (a, .preAssemble) => [.preAssemble a.parent]
  | some (a, .assembleBlock) => hooks.pre a.parent ++ [.assembleBlock a]
  | _ => []

/-- The prover has run in rounds, each with its hooks. -/
structure Bracketed (hooks : AssembleHooks) (A : Assembler Ctx) : Prop where
  hooked : ∀ a, A.holder = some (a, .preAssemble) → hooks.preAssemble = true
  rounds : ∃ rounds : List (List (Action Ctx)), (∀ r ∈ rounds, Round hooks r)
    ∧ A.proverLog = rounds.flatten ++ A.openRound hooks

namespace Bracketed

lemma init : Bracketed hooks (init : Assembler Ctx) := by
  refine ⟨fun _ h => (by cases h), [], fun _ h => absurd h List.not_mem_nil, rfl⟩

/-- What starts neither prover nor hook leaves the rounds as they are. -/
lemma quiet (h : A.Bracketed hooks) (hlog : A'.proverLog = A.proverLog)
    (hopen : A'.openRound hooks = A.openRound hooks)
    (hholder : ∀ a, A'.holder = some (a, .preAssemble) → A.holder = some (a, .preAssemble)) :
    A'.Bracketed hooks := by
  obtain ⟨rounds, hrounds, heq⟩ := h.rounds
  exact ⟨fun a ha => h.hooked a (hholder a ha), rounds, hrounds, by rw [hlog, hopen, heq]⟩

/-- The open round ends. -/
lemma close (h : A.Bracketed hooks) (last : List (Action Ctx))
    (hround : Round hooks (A.openRound hooks ++ last)) (hlog : A'.proverLog = A.proverLog ++ last)
    (hopen : A'.openRound hooks = []) (hholder : ∀ a, A'.holder ≠ some (a, .preAssemble)) :
    A'.Bracketed hooks := by
  obtain ⟨rounds, hrounds, heq⟩ := h.rounds
  refine ⟨fun a ha => absurd ha (hholder a), rounds ++ [A.openRound hooks ++ last], ?_, ?_⟩
  · intro r hr
    rcases List.mem_append.mp hr with hr | hr
    · exact hrounds r hr
    · rw [List.mem_singleton.mp hr]
      exact hround
  · rw [hlog, heq, hopen, List.flatten_concat, List.append_nil, List.append_assoc]

/-- The open round goes on. -/
lemma extend (h : A.Bracketed hooks) {more : List (Action Ctx)}
    (hlog : A'.proverLog = A.proverLog ++ more)
    (hopen : A'.openRound hooks = A.openRound hooks ++ more)
    (hholder : ∀ a, A'.holder = some (a, .preAssemble) → hooks.preAssemble = true) :
    A'.Bracketed hooks := by
  obtain ⟨rounds, hrounds, heq⟩ := h.rounds
  exact ⟨hholder, rounds, hrounds, by rw [hlog, heq, hopen, List.append_assoc]⟩

/-- A start of the prover or a hook is added to the log. -/
lemma proverLog_cons {x : Action Ctx} (h : A'.log = x :: A.log) (hx : x.aroundProver = true) :
    A'.proverLog = A.proverLog ++ [x] := by
  rw [proverLog, h, List.filter_cons_of_pos hx, List.reverse_cons]
  rfl

/-- The prover is started after its hook. -/
lemma assembleBlock (h : A.Bracketed hooks) (a : Assembly Ctx)
    (hopen : A.openRound hooks = hooks.pre a.parent) : (A.assembleBlock a).Bracketed hooks := by
  refine h.extend (proverLog_cons (x := .assembleBlock a) rfl rfl) ?_ fun b hb => by cases hb
  rw [hopen]
  rfl

/-- The block of the prover is submitted, or its exception raised. -/
lemma submitBlock (h : A.Bracketed hooks) (a : Assembly Ctx) (block : Except PyError PyStr)
    (hopen : A.openRound hooks = []) : (A.submitBlock a block).Bracketed hooks := by
  cases block with
  | error error => exact h.quiet rfl hopen.symm (fun b hb => by cases hb)
  | ok block => exact h.quiet rfl hopen.symm (fun b hb => by cases hb)

/-- Every event keeps the rounds. -/
lemma step (hstep : Assembler.step hooks A e = some A') (h : A.Bracketed hooks) :
    A'.Bracketed hooks := by
  cases effect_of_step hstep with
  | setTemplate template =>
      rw [Assembler.setTemplate]
      split_ifs
      · exact h.quiet rfl rfl fun _ ha => ha
      · exact h.quiet rfl rfl fun _ ha => ha
  | call a => exact h.quiet rfl rfl fun _ ha => ha
  | acquire a rest free first =>
      have hopen : A.openRound hooks = [] := by rw [openRound, free]
      have hrest : Bracketed hooks { A with waiting := rest } := h.quiet rfl rfl fun _ ha => ha
      rw [locked]
      split_ifs with hdone hpre
      · exact hrest
      · refine hrest.extend (proverLog_cons (x := .preAssemble a.parent) rfl rfl) ?_ fun _ _ => hpre
        exact (congrArg (· ++ [Action.preAssemble a.parent]) hopen).symm
      · refine hrest.assembleBlock a (hopen.trans ?_)
        rw [AssembleHooks.pre, if_neg hpre]
  | preAssembled a held u =>
      refine h.assembleBlock a ?_
      rw [openRound, held, AssembleHooks.pre, if_pos (h.hooked a held)]
  | preRaised a held error =>
      have hopen : A.openRound hooks = [.preAssemble a.parent] := by rw [openRound, held]
      exact h.close [] (by rw [hopen]; exact .raised a.parent)
        (List.append_nil _).symm rfl fun b hb => by cases hb
  | assembled a held block =>
      have hopen : A.openRound hooks = hooks.pre a.parent ++ [.assembleBlock a] := by
        rw [openRound, held]
      rw [Assembler.assembled]
      split_ifs with hpost
      · refine h.close (hooks.post a.parent) (by rw [hopen]; exact .proved a) ?_ rfl
          fun b hb => by cases hb
        rw [AssembleHooks.post, if_pos hpost]
        exact proverLog_cons (x := .postAssemble a.parent) rfl rfl
      · have hclosed : A.release.Bracketed hooks := by
          refine h.close (hooks.post a.parent) (by rw [hopen]; exact .proved a) ?_ rfl
            fun b hb => by cases hb
          rw [AssembleHooks.post, if_neg hpost]
          exact (List.append_nil _).symm
        exact hclosed.submitBlock a block rfl
  | postAssembled a block held u => exact h.submitBlock a block (by rw [openRound, held])
  | postRaised a block held error =>
      exact h.quiet rfl (by rw [openRound, openRound, held]; rfl) fun b hb => by cases hb
  | submitted a block held outcome =>
      have hopen : A.openRound hooks = [] := by rw [openRound, held]
      cases outcome with
      | error error => exact h.quiet rfl hopen.symm fun b hb => by cases hb
      | ok result =>
          rw [Assembler.submitted]
          simp only
          split_ifs
          · exact h.quiet rfl hopen.symm fun b hb => by cases hb
          · exact h.quiet rfl hopen.symm fun b hb => by cases hb
  | broadcasted a held result =>
      exact h.quiet rfl (by rw [openRound, openRound, held]; rfl) fun b hb => by cases hb

end Bracketed

/-! ### One prover at a time -/

/-- How often the prover was started. -/
def starts (A : Assembler Ctx) : ℕ := A.log.countP Action.startsProver

/-- How many provers run. -/
def running (A : Assembler Ctx) : ℕ :=
  match A.holder with
  | some (_, .assembleBlock) => 1
  | _ => 0

/-- The prover comes back. -/
def Event.returns : Event Ctx → ℕ
  | .assembled _ => 1
  | _ => 0

lemma starts_cons {x : Action Ctx} (h : A'.log = x :: A.log) (hx : x.startsProver = false) :
    A'.starts = A.starts := by
  rw [starts, h, List.countP_cons_of_neg (by simp [hx])]
  rfl

/-- Away from the prover none runs. -/
lemma running_of_held {a : Assembly Ctx} {phase : Phase} (held : A.holder = some (a, phase))
    (hphase : phase ≠ .assembleBlock) : A.running = 0 := by
  rw [running, held]
  cases phase with
  | assembleBlock => exact absurd rfl hphase
  | _ => rfl

/-- An assembler at rest starts the prover. -/
lemma starts_assembleBlock {B : Assembler Ctx} (hidle : B.running = 0) (hsame : B.starts = A.starts)
    (a : Assembly Ctx) :
    (B.assembleBlock a).starts + B.running = A.starts + (B.assembleBlock a).running := by
  have hcount : (B.assembleBlock a).starts = B.starts + 1 :=
    List.countP_cons_of_pos (p := Action.startsProver) (a := .assembleBlock a) rfl
  have hnow : (B.assembleBlock a).running = 1 := rfl
  omega

/-- What the prover returned is submitted, or not, with none running. -/
lemma starts_submitBlock (A : Assembler Ctx) (a : Assembly Ctx) (block : Except PyError PyStr) :
    (A.submitBlock a block).starts = A.starts ∧ (A.submitBlock a block).running = 0 := by
  cases block <;> exact ⟨rfl, rfl⟩

/-- The prover starts when none runs, and stops when it comes back. -/
lemma starts_of_step (hstep : step hooks A e = some A') :
    A'.starts + A.running = A.starts + A'.running + e.returns := by
  cases effect_of_step hstep with
  | setTemplate template =>
      have hsame : (A.setTemplate template).starts = A.starts
          ∧ (A.setTemplate template).running = A.running := by
        rw [setTemplate]
        split_ifs
        · exact ⟨starts_cons (x := .clear) rfl rfl, rfl⟩
        · exact ⟨rfl, rfl⟩
      rw [hsame.1, hsame.2]
      rfl
  | call a => rfl
  | acquire a rest free first =>
      have hnone : A.running = 0 := by rw [running, free]
      rw [locked]
      split_ifs
      · exact congrArg (A.starts + ·) rfl
      · rw [hnone]
        exact starts_cons (x := .preAssemble a.parent) rfl rfl
      · exact starts_assembleBlock (B := { A with waiting := rest }) hnone rfl a
  | preAssembled a held u => exact starts_assembleBlock (running_of_held held (by simp)) rfl a
  | preRaised a held error =>
      rw [running_of_held held (by simp)]
      rfl
  | assembled a held block =>
      have hone : A.running = 1 := by rw [running, held]
      rw [assembled, hone]
      split_ifs
      · rw [starts_cons (A := A) (x := .postAssemble a.parent) rfl rfl]
        rfl
      · have hsame := starts_submitBlock A a block
        rw [hsame.1, hsame.2]
        rfl
  | postAssembled a block held u =>
      have hsame := starts_submitBlock A a block
      rw [running_of_held held (by simp), hsame.1, hsame.2]
      rfl
  | postRaised a block held error =>
      rw [running_of_held held (by simp)]
      rfl
  | submitted a block held outcome =>
      rw [running_of_held held (by simp)]
      cases outcome with
      | error error => exact starts_cons (x := .submitBlock a.parent (.error error)) rfl rfl
      | ok result =>
          rw [submitted]
          simp only
          split_ifs
          · exact (starts_cons (A := { A with
              log := .submitBlock a.parent (.ok result) :: A.log }) (x := .broadcastBlock a.parent)
              rfl rfl).trans (starts_cons (x := .submitBlock a.parent (.ok result)) rfl rfl)
          · exact starts_cons (x := .submitBlock a.parent (.ok result)) rfl rfl
  | broadcasted a held result =>
      rw [running_of_held held (by simp)]
      rfl

/-! ### One block a parent -/

/-- A submission for the parent has returned. -/
def Submitted (A : Assembler Ctx) (p : Hash32) : Prop := ∃ x ∈ A.log, x.done = some p

/-- Nothing is proved or submitted for a parent after a submission for it has returned. -/
def Once (A : Assembler Ctx) : Prop :=
  A.log.Pairwise fun later earlier => ∀ p ∈ earlier.done, later.worksOn ≠ some p

instance (A : Assembler Ctx) : Decidable A.Once := inferInstanceAs (Decidable (List.Pairwise _ _))

/-- The parent is the one of the current template. -/
def Current (A : Assembler Ctx) (p : Hash32) : Prop :=
  A.template.map ParentTemplate.prevBlock = some p

/-- The call is at the prover, or at the hook before it. -/
def AtProver (A : Assembler Ctx) (a : Assembly Ctx) : Prop :=
  A.holder = some (a, .preAssemble) ∨ A.holder = some (a, .assembleBlock)

lemma AtProver.phase {a b : Assembly Ctx} {phase : Phase} (h : A.AtProver a)
    (held : A.holder = some (b, phase)) :
    b = a ∧ (phase = .preAssemble ∨ phase = .assembleBlock) := by
  rcases h with h | h
  · cases held.symm.trans h
    exact ⟨rfl, Or.inl rfl⟩
  · cases held.symm.trans h
    exact ⟨rfl, Or.inr rfl⟩

lemma not_atProver_of_free (free : A.holder = none) (a : Assembly Ctx) : ¬A.AtProver a := by
  rintro (h | h)
  · cases free.symm.trans h
  · cases free.symm.trans h

/-- No call for a stale parent is at the prover while one for the current parent waits. -/
def Unobstructed (A : Assembler Ctx) : Prop :=
  ∀ a b, A.AtProver a → b ∈ A.waiting → A.Current b.parent → A.Current a.parent

/-- The event neither starts a second block of a parent nor lets a stale call get before a current
one: the call that takes the lock is for a marked parent, or for one without a submission and not
before a call for the current one unless for the same; no call for the current parent is made, and
no template arrives whose parent has a call waiting, while a call for another one is at the
prover. -/
def Orderly (A : Assembler Ctx) : Event Ctx → Prop
  | .acquire => ∀ a rest, A.waiting = a :: rest → a.parent ∈ A.assembledParents
      ∨ ¬A.Submitted a.parent ∧ ∀ b ∈ rest, A.Current b.parent → A.Current a.parent
  | .call b => ∀ a, A.AtProver a → A.Current b.parent → A.Current a.parent
  | .setTemplate template => ∀ a b, A.AtProver a → b ∈ A.waiting →
      b.parent = template.prevBlock → a.parent = template.prevBlock
  | _ => True

/-- What holds of the assembler where every event is orderly: a call that holds the lock is for a
parent without a submission until its own has returned. -/
structure Pristine (A : Assembler Ctx) : Prop where
  once : A.Once
  unobstructed : A.Unobstructed
  fresh : ∀ a phase, A.holder = some (a, phase) → phase ≠ .broadcastBlock →
    ¬A.Submitted a.parent

namespace Pristine

lemma init : (init : Assembler Ctx).Pristine :=
  ⟨List.Pairwise.nil, fun _ _ _ h => absurd h List.not_mem_nil, fun _ _ h => by cases h⟩

/-- What is done next for a parent without a submission is done once. -/
lemma once_cons {x : Action Ctx} (h : A.Once) (hlog : A'.log = x :: A.log)
    (hx : ∀ p, x.worksOn = some p → ¬A.Submitted p) : A'.Once := by
  rw [Once, hlog]
  exact List.pairwise_cons.mpr ⟨fun y hy p hp hworks => hx p hworks ⟨y, hy, hp⟩, h⟩

/-- An action that is no returned submission adds none. -/
lemma submitted_of_cons {x : Action Ctx} {p : Hash32} (hlog : A'.log = x :: A.log)
    (hx : x.done = none) (h : A'.Submitted p) : A.Submitted p := by
  obtain ⟨y, hy, hp⟩ := h
  rw [hlog] at hy
  rcases List.mem_cons.mp hy with rfl | hy
  · rw [hx] at hp
    cases hp
  · exact ⟨y, hy, hp⟩

/-- The lock is released. -/
lemma release (h : A.Pristine) : A.release.Pristine :=
  ⟨h.once, fun a _ ha => absurd ha (not_atProver_of_free rfl a), fun _ _ hh => by cases hh⟩

/-- A call goes on to an adapter. -/
lemma enter (h : A.Pristine) {a : Assembly Ctx} {phase : Phase} {x : Action Ctx}
    (hworks : ∀ p, x.worksOn = some p → ¬A.Submitted p) (hdone : x.done = none)
    (hfresh : phase ≠ .broadcastBlock → ¬A.Submitted a.parent)
    (hfirst : phase = .preAssemble ∨ phase = .assembleBlock →
      ∀ b ∈ A.waiting, A.Current b.parent → A.Current a.parent) :
    (A.enter a phase (some x)).Pristine := by
  refine ⟨once_cons h.once rfl hworks, fun c b hc hb hcurrent => ?_,
    fun c phase' hc hphase hs => ?_⟩
  · obtain ⟨rfl, hphase⟩ := hc.phase rfl
    exact hfirst hphase b hb hcurrent
  · cases hc
    exact hfresh hphase (submitted_of_cons (A := A) rfl hdone hs)

/-- The block of the prover is submitted, or its exception raised. -/
lemma submitBlock (h : A.Pristine) {a : Assembly Ctx} (hfresh : ¬A.Submitted a.parent)
    (block : Except PyError PyStr) : (A.submitBlock a block).Pristine := by
  cases block with
  | error error => exact h.release
  | ok block =>
      refine ⟨h.once, fun c b hc => ?_, fun c phase hc _ => ?_⟩
      · exact absurd (hc.phase rfl).2 (by simp)
      · cases hc
        exact hfresh

/-- **Orderly events** keep it. -/
lemma step (hstep : Assembler.step hooks A e = some A') (horderly : A.Orderly e)
    (h : A.Pristine) : A'.Pristine := by
  cases effect_of_step hstep with
  | setTemplate template =>
      have hone : (A.setTemplate template).template = some template
          ∧ (A.setTemplate template).holder = A.holder
          ∧ (A.setTemplate template).waiting = A.waiting
          ∧ ((A.setTemplate template).log = A.log
            ∨ (A.setTemplate template).log = .clear :: A.log) := by
        rw [Assembler.setTemplate]
        split_ifs
        · exact ⟨rfl, rfl, rfl, Or.inr rfl⟩
        · exact ⟨rfl, rfl, rfl, Or.inl rfl⟩
      obtain ⟨htemplate, hholder, hwaiting, hlog⟩ := hone
      have hsubmitted : ∀ p, (A.setTemplate template).Submitted p → A.Submitted p := by
        intro p hp
        rcases hlog with hlog | hlog
        · rwa [Submitted, hlog] at hp
        · exact submitted_of_cons hlog rfl hp
      refine ⟨?_, fun a b ha hb hcurrent => ?_, fun a phase ha hphase hs => ?_⟩
      · rcases hlog with hlog | hlog
        · rw [Once, hlog]
          exact h.once
        · exact once_cons h.once hlog fun p hp => by cases hp
      · rw [Current, htemplate] at hcurrent ⊢
        rw [AtProver, hholder] at ha
        rw [hwaiting] at hb
        exact congrArg some (horderly a b ha hb (Option.some.inj hcurrent).symm).symm
      · exact h.fresh a phase (hholder ▸ ha) hphase (hsubmitted _ hs)
  | call c =>
      refine ⟨h.once, fun a b ha hb hcurrent => ?_, h.fresh⟩
      rcases List.mem_append.mp hb with hb | hb
      · exact h.unobstructed a b ha hb hcurrent
      · rw [List.mem_singleton.mp hb] at hcurrent
        exact horderly a ha hcurrent
  | acquire a rest free first =>
      have hrest : Pristine { A with waiting := rest } := by
        exact ⟨h.once, fun c b hc => absurd hc (not_atProver_of_free free c), h.fresh⟩
      rw [locked]
      split_ifs with hdone hpre
      · exact hrest
      · obtain ⟨hnew, hfirst⟩ := (horderly a rest first).resolve_left hdone
        exact hrest.enter (fun p hp => by cases hp) rfl (fun _ => hnew) fun _ => hfirst
      · obtain ⟨hnew, hfirst⟩ := (horderly a rest first).resolve_left hdone
        exact hrest.enter (fun p hp => by cases hp; exact hnew) rfl (fun _ => hnew) fun _ => hfirst
  | preAssembled a held u =>
      have hnew := h.fresh a _ held (by simp)
      exact h.enter (fun p hp => by cases hp; exact hnew) rfl (fun _ => hnew) fun _ b hb =>
        h.unobstructed a b (Or.inl held) hb
  | preRaised a held error => exact h.release
  | assembled a held block =>
      have hnew := h.fresh a _ held (by simp)
      rw [Assembler.assembled]
      split_ifs
      · exact h.enter (fun p hp => by cases hp) rfl (fun _ => hnew) (by simp)
      · exact h.submitBlock hnew block
  | postAssembled a block held u => exact h.submitBlock (h.fresh a _ held (by simp)) block
  | postRaised a block held error => exact h.release
  | submitted a block held outcome =>
      have hnew := h.fresh a _ held (by simp)
      have honce : Once { A with log := .submitBlock a.parent outcome :: A.log } :=
        once_cons h.once rfl fun p hp => by cases hp; exact hnew
      cases outcome with
      | error error =>
          exact ⟨honce, fun c _ hc => absurd hc (not_atProver_of_free rfl c),
            fun _ _ hh => by cases hh⟩
      | ok result =>
          rw [Assembler.submitted]
          simp only
          split_ifs
          · refine ⟨once_cons honce rfl fun p hp => (by cases hp), fun c b hc => ?_,
              fun c phase hc hphase => ?_⟩
            · exact absurd (hc.phase rfl).2 (by simp)
            · cases hc
              exact absurd rfl hphase
          · exact ⟨honce, fun c _ hc => absurd hc (not_atProver_of_free rfl c),
              fun _ _ hh => by cases hh⟩
  | broadcasted a held result => exact h.release

end Pristine

/-- **Nothing less keeps it**: without a pre hook, an event after which a parent has one block and
no stale call is before a current one was orderly. -/
lemma orderly_of_once (hhook : hooks.preAssemble = false)
    (hstep : Assembler.step hooks A e = some A') (honce : A'.Once) (hfree : A'.Unobstructed) :
    A.Orderly e := by
  cases effect_of_step hstep with
  | setTemplate template =>
      intro a b ha hb hparent
      have hkept : (A.setTemplate template).template = some template
          ∧ (A.setTemplate template).holder = A.holder
          ∧ (A.setTemplate template).waiting = A.waiting := by
        rw [setTemplate]
        split_ifs <;> exact ⟨rfl, rfl, rfl⟩
      obtain ⟨htemplate, hholder, hwaiting⟩ := hkept
      have hcurrent := hfree a b (by rwa [AtProver, hholder]) (hwaiting ▸ hb)
        (by rw [Current, htemplate, hparent]; rfl)
      rw [Current, htemplate] at hcurrent
      exact (Option.some.inj hcurrent).symm
  | call b =>
      intro a ha hcurrent
      exact hfree a b ha (List.mem_append_right _ (List.mem_singleton_self b)) hcurrent
  | acquire a rest free first =>
      intro c rest' hfirst
      cases first.symm.trans hfirst
      by_cases hdone : a.parent ∈ A.assembledParents
      · exact Or.inl hdone
      · rw [locked, if_neg hdone, if_neg (by simp [hhook])] at honce hfree
        refine Or.inr ⟨?_, fun b hb hcurrent => hfree a b (Or.inr rfl) hb hcurrent⟩
        rintro ⟨x, hx, hp⟩
        exact (List.pairwise_cons.mp honce).1 x hx _ hp rfl
  | _ => trivial

end Assembler

/-! ### The node -/

namespace PoolNode

variable {P : Params} {adapters : Adapters Ctx} {N N' : PoolNode Ctx} {e : Event Ctx}

/-- What an event is to the assembler: a follow-up or a collaborative submission that clears the
block target is a call. -/
def assemblerEvent (adapters : Adapters Ctx) (N : PoolNode Ctx) :
    Event Ctx → Option (Assembler.Event Ctx)
  | .checked i => N.followups[i]?.bind fun f =>
      match adapters.verifyBlock f.headerBytes f.submission.plainProof f.context.certVersion with
      | .ok true => some (.call ⟨f.context, f.submission.plainProof⟩)
      | _ => none
  | .collaborate share proof => adapters.makeHeaderFromShare.bind fun makeHeaderFromShare =>
      match tryCollaborativeSubmit (makeHeaderFromShare N.chain) adapters.setCertVersion
        adapters.verifyBlock N.assembler.template share proof with
      | .ok (some context) => some (.call ⟨context, proof⟩)
      | _ => none
  | .assembler e => some e
  | _ => none

/-- An event is that to the assembler. -/
lemma assembler_of_step (hstep : PoolNode.step P adapters N e = some N') :
    (assemblerEvent adapters N e = none ∧ N'.assembler = N.assembler)
      ∨ ∃ e', assemblerEvent adapters N e = some e'
        ∧ Assembler.step adapters.hooks N.assembler e' = some N'.assembler := by
  cases e with
  | submit submission =>
      cases hstep
      exact Or.inl ⟨rfl, (handleSubmit_frame N submission).2.2.2⟩
  | validated i now vardiffChanged =>
      obtain ⟨v, -, rfl⟩ := Option.map_eq_some_iff.mp hstep
      exact Or.inl ⟨rfl, (finishValidation_frame P adapters _ v now vardiffChanged).2.2.2⟩
  | checked i =>
      obtain ⟨f, hf, rfl⟩ := Option.map_eq_some_iff.mp hstep
      rw [assemblerEvent, hf, Option.bind_some, finishFollowup]
      rcases adapters.verifyBlock f.headerBytes f.submission.plainProof f.context.certVersion with
        error | (_ | _)
      · exact Or.inl ⟨rfl, rfl⟩
      · exact Or.inl ⟨rfl, rfl⟩
      · exact Or.inr ⟨_, rfl, rfl⟩
  | addShare call => cases hstep; exact Or.inl ⟨rfl, rfl⟩
  | collaborate share proof =>
      cases hstep
      rw [assemblerEvent, collaborate]
      cases hmake : adapters.makeHeaderFromShare with
      | none => exact Or.inl ⟨rfl, rfl⟩
      | some makeHeaderFromShare =>
          rw [Option.bind_some]
          dsimp only
          rcases tryCollaborativeSubmit (makeHeaderFromShare N.chain) adapters.setCertVersion
            adapters.verifyBlock N.assembler.template share proof with error | (_ | context)
          · exact Or.inl ⟨rfl, rfl⟩
          · exact Or.inl ⟨rfl, rfl⟩
          · exact Or.inr ⟨_, rfl, rfl⟩
  | assembler e =>
      obtain ⟨-, A, hA, rfl⟩ := step_assembler hstep
      exact Or.inr ⟨e, rfl, hA⟩

/-- The event is orderly to the assembler. -/
def Orderly (adapters : Adapters Ctx) (N : PoolNode Ctx) (e : Event Ctx) : Prop :=
  ∀ e', assemblerEvent adapters N e = some e' → N.assembler.Orderly e'

/-- What every event of the assembler preserves, every event of the node preserves. -/
lemma assembler_preserves {I : Assembler Ctx → Prop}
    (hI : ∀ A e A', Assembler.step adapters.hooks A e = some A' → I A → I A')
    (hstep : PoolNode.step P adapters N e = some N') (h : I N.assembler) : I N'.assembler := by
  rcases assembler_of_step hstep with ⟨-, hsame⟩ | ⟨e', -, hA⟩
  · rw [hsame]
    exact h
  · exact hI _ _ _ hA h

/-- How often the prover has come back. -/
def returns (events : List (Event Ctx)) : ℕ :=
  events.countP fun e => match e with
    | .assembler (.assembled _) => true
    | _ => false

/-- The prover is started once between two returns. -/
lemma starts_of_run {events : List (Event Ctx)}
    (hrun : Machine.run (PoolNode.step P adapters) .init events = some N) :
    N.assembler.starts = returns events + N.assembler.running := by
  induction events using List.reverseRecOn generalizing N with
  | nil => cases hrun; rfl
  | append_singleton events e ih =>
      obtain ⟨M, hM, hstep⟩ := Machine.run_concat_eq_some_iff.mp hrun
      have hpast := ih hM
      have hcount : returns (events ++ [e]) = returns events + returns [e] := List.countP_append
      rcases assembler_of_step hstep with ⟨hnone, hsame⟩ | ⟨e', he', hA⟩
      · have hzero : returns [e] = 0 := by
          cases e with
          | assembler e => cases hnone
          | _ => rfl
        rw [hsame, hpast, hcount, hzero, Nat.add_zero]
      · have hback : returns [e] = e'.returns := by
          cases e with
          | assembler e => cases he'; cases e' <;> rfl
          | submit submission => cases he'
          | validated i now vardiffChanged => cases he'
          | addShare call => cases he'
          | checked i =>
              obtain ⟨f, -, hf⟩ := Option.bind_eq_some_iff.mp he'
              split at hf
              · cases hf; rfl
              · cases hf
          | collaborate share proof =>
              obtain ⟨makeHeaderFromShare, -, hf⟩ := Option.bind_eq_some_iff.mp he'
              split at hf
              · cases hf; rfl
              · cases hf
        have hstarts := Assembler.starts_of_step hA
        omega

end PoolNode

open PoolNode in
/-- **When a parent's block is proved and submitted once.**  In every state a run passes, at most
one prover runs, and the prover has run between its hooks.  If every event of the run is orderly,
nothing was proved or submitted for a parent after a submission for it had returned, and no call for
a stale parent is at the prover while one for the current parent waits; without a pre hook, this is
so only if every event is. -/
theorem proved_once (P : Params) (adapters : Adapters Ctx) (events : List (Event Ctx))
    (N : PoolNode Ctx) (hrun : Machine.run (step P adapters) .init events = some N) :
    (∀ past M, past <+: events → Machine.run (step P adapters) .init past = some M →
        M.assembler.starts = returns past + M.assembler.running ∧ M.assembler.running ≤ 1
        ∧ M.assembler.Bracketed adapters.hooks)
      ∧ (Machine.Along (step P adapters) (Orderly adapters) .init events →
        ∀ past M, past <+: events → Machine.run (step P adapters) .init past = some M →
          M.assembler.Once ∧ M.assembler.Unobstructed)
      ∧ (adapters.hooks.preAssemble = false →
        (∀ past M, past <+: events → Machine.run (step P adapters) .init past = some M →
          M.assembler.Once ∧ M.assembler.Unobstructed) →
        Machine.Along (step P adapters) (Orderly adapters) .init events) := by
  refine ⟨fun past M _ hM => ⟨starts_of_run hM, ?_, ?_⟩, fun horderly past M hpre hM => ?_,
    fun hhook hall => ?_⟩
  · rw [Assembler.running]
    split <;> omega
  · exact Machine.run_preserves (I := fun N => N.assembler.Bracketed adapters.hooks)
      (fun _ _ _ hstep h => assembler_preserves (fun _ _ _ hs h => h.step hs) hstep h)
      Assembler.Bracketed.init hM
  · have hpristine : M.assembler.Pristine := by
      refine Machine.run_invariant (I := fun N => N.assembler.Pristine)
        (fun N e N' ho hstep h => ?_) (horderly.of_prefix hpre) Assembler.Pristine.init hM
      rcases assembler_of_step hstep with ⟨-, hsame⟩ | ⟨e', he', hA⟩
      · rw [hsame]
        exact h
      · exact h.step hA (ho e' he')
    exact ⟨hpristine.once, hpristine.unobstructed⟩
  · refine Machine.along_of_prefix fun past e M hpre hM e' he' => ?_
    obtain ⟨future, rfl⟩ := hpre
    obtain ⟨M', hM', -⟩ := Machine.run_append_eq_some_iff.mp hrun
    obtain ⟨M₀, hM₀, hstep⟩ := Machine.run_concat_eq_some_iff.mp hM'
    cases hM.symm.trans hM₀
    obtain ⟨honce, hfree⟩ := hall _ M' ⟨future, rfl⟩ hM'
    rcases assembler_of_step hstep with ⟨hnone, -⟩ | ⟨e₁, he₁, hA⟩
    · cases hnone.symm.trans he'
    · cases he₁.symm.trans he'
      exact Assembler.orderly_of_once hhook hA honce hfree

namespace Assembler

/-- The call at the prover, or at the hook before it. -/
def prover (A : Assembler Ctx) : Option (Assembly Ctx) :=
  match A.holder with
  | some (a, .preAssemble) | some (a, .assembleBlock) => some a
  | _ => none

lemma atProver_iff {A : Assembler Ctx} {a : Assembly Ctx} : A.AtProver a ↔ A.prover = some a := by
  rw [AtProver, prover]
  split <;> simp_all

instance (A : Assembler Ctx) (p : Hash32) : Decidable (A.Submitted p) :=
  inferInstanceAs (Decidable (∃ x ∈ A.log, x.done = some p))

instance (A : Assembler Ctx) (p : Hash32) : Decidable (A.Current p) :=
  inferInstanceAs (Decidable (_ = _))

instance (A : Assembler Ctx) : ∀ e, Decidable (A.Orderly e)
  | .acquire =>
      match hw : A.waiting with
      | [] => isTrue fun a rest h => by cases hw.symm.trans h
      | a :: rest => decidable_of_iff (a.parent ∈ A.assembledParents
          ∨ ¬A.Submitted a.parent ∧ ∀ b ∈ rest, A.Current b.parent → A.Current a.parent)
          ⟨fun h a' rest' he => by cases hw.symm.trans he; exact h, fun h => h a rest hw⟩
  | .call b => decidable_of_iff (∀ a ∈ A.prover, A.Current b.parent → A.Current a.parent)
      (forall_congr' fun _ => imp_congr_left atProver_iff.symm)
  | .setTemplate template => decidable_of_iff (∀ a ∈ A.prover, ∀ b ∈ A.waiting,
      b.parent = template.prevBlock → a.parent = template.prevBlock)
      ⟨fun h a b ha => h a (atProver_iff.mp ha) b, fun h a ha b => h a b (atProver_iff.mpr ha)⟩
  | .preAssembled .. | .assembled .. | .postAssembled .. | .submitted .. | .broadcasted .. =>
      isTrue trivial

end Assembler

instance (adapters : Adapters Ctx) (N : PoolNode Ctx) (e : PoolNode.Event Ctx) :
    Decidable (PoolNode.Orderly adapters N e) :=
  inferInstanceAs (Decidable (∀ e' ∈ PoolNode.assemblerEvent adapters N e, N.assembler.Orderly e'))

/-- The job of the address `b` on an empty sharechain, for the same parent. -/
def secondSubmission : Submission Unit :=
  ⟨some ['b'], [], ⟨['2'], [], bootstrapShareTarget, 0,
    some ⟨genesisShare 1 0 ['b'] (doubleSha256 (leBytes 4 0)), (), [], 1⟩⟩, zeroProof, by decide⟩

/-- Two miners find a block for the parent of the first template; the call for the second one waits
until the first is submitted.  Then the template moves on. -/
def twoFinders : List (PoolNode.Event Unit) :=
  [.assembler (.setTemplate firstTemplate), .submit (firstSubmission zeroProof (by decide)),
    .submit secondSubmission, .validated 0 0 false, .validated 0 0 false, .checked 0,
    .assembler .acquire, .checked 0, .assembler (.assembled (.ok [])),
    .assembler (.submitted (.ok none)), .assembler .acquire,
    .assembler (.setTemplate { firstTemplate with prevBlock := doubleSha256 [] })]

open PoolNode in
/-- One block is proved and submitted for them. -/
theorem proved_once_two :
    ∃ N, Machine.run (step {} (oneProof zeroProof)) .init twoFinders = some N
      ∧ N.assembler.starts = 1 ∧ N.assembler.Submitted firstTemplate.prevBlock
      ∧ N.assembler.waiting.length = 0 ∧ N.assembler.Once ∧ N.assembler.Unobstructed := by
  have hcomputed : ∃ N ∈ Machine.run (step {} (oneProof zeroProof)) .init twoFinders,
      N.assembler.starts = 1 ∧ N.assembler.Submitted firstTemplate.prevBlock
        ∧ N.assembler.waiting.length = 0 := by decide +kernel
  have horderly : Machine.Along (step {} (oneProof zeroProof)) (Orderly (oneProof zeroProof)) .init
      twoFinders := by decide +kernel
  obtain ⟨N, hrun, hstarts, hsubmitted, hdone⟩ := hcomputed
  exact ⟨N, hrun, hstarts, hsubmitted, hdone,
    (proved_once {} (oneProof zeroProof) twoFinders N hrun).2.1 horderly _ _ List.prefix_rfl hrun⟩

/-! ### A late follow-up -/

/-- Two miners find a block for the parent of the first template; the second one is still checked
when the first is submitted and the template moves on. -/
def lateFollowup : List (PoolNode.Event Unit) :=
  [.assembler (.setTemplate firstTemplate), .submit (firstSubmission zeroProof (by decide)),
    .submit secondSubmission, .validated 0 0 false, .validated 0 0 false, .checked 0,
    .assembler .acquire, .assembler (.assembled (.ok [])), .assembler (.submitted (.ok none)),
    .assembler (.setTemplate { firstTemplate with prevBlock := doubleSha256 [] }), .checked 0,
    .assembler .acquire]

open PoolNode in
/-- The late block is proved too: the marks were cleared with the template. -/
theorem proved_twice : ¬∀ (P : Params) (adapters : Adapters Unit) (events : List (Event Unit))
    (N : PoolNode Unit), Machine.run (step P adapters) .init events = some N →
    N.assembler.Once := by
  intro h
  have hrun : ((Machine.run (step {} (oneProof zeroProof)) .init lateFollowup).map
      fun N => decide N.assembler.Once) = some false := by decide +kernel
  obtain ⟨N, hN, honce⟩ := Option.map_eq_some_iff.mp hrun
  exact of_decide_eq_false honce (h {} (oneProof zeroProof) lateFollowup N hN)

end P2Pearl
