import P2Pearl.Daemon.Rebuild

/-!
Whether the verdict on a share is the same at every node.

* `certVersionForShare`: `_cert_version_for_share`, which looks at the template the node holds and
  not at the share.
* `verdict_objective_iff`: a node accepts what a finder accepted, whatever verifier `pearl_mining`
  brings, exactly when its template asks for the certificate version of the finder's job, and two
  nodes agree exactly when their templates ask for the same one.
* `verdict_subjective`: a template for the next certificate version refuses an accepted share.
-/

namespace P2Pearl

variable {B : Bitcoinutils} {M : PearlMining} {P : Params}

/-- `_cert_version_for_share` of `build_production_node`: it ignores the share. -/
def certVersionForShare (template : Option ParentTemplate) (_share : ShareBlock) : ℕ :=
  match template with
  | some template => template.requiredCertVersion
  | none => 1

/-- The build with another `verify_plain_proof_for_cert_version`. -/
def PearlMining.withVersioned (M : PearlMining)
    (verify : ℕ → M.Header → M.Proof → Option ℕ → Except PyError Bool) : PearlMining :=
  { M with versioned := some verify }

/-- With a versioned verifier, a share that parses is graded by it. -/
lemma verifyShare_withVersioned {headerBytes : Bytes} {plainProof : PyStr} {header : M.Header}
    {proof : M.Proof} (hproof : M.fromBase64 plainProof = .ok proof)
    (hheader : M.fromBytes headerBytes = .ok header)
    (verify : ℕ → M.Header → M.Proof → Option ℕ → Except PyError Bool) (nbits certVersion : ℕ) :
    verifyShare (M.withVersioned verify) headerBytes plainProof nbits (some certVersion)
      = verify certVersion header proof (some nbits) := by
  have hproof' : (M.withVersioned verify).fromBase64 plainProof = .ok proof := hproof
  have hheader' : (M.withVersioned verify).fromBytes headerBytes = .ok header := hheader
  rw [verifyShare, hproof']
  change (PearlMining.fromBytes (M.withVersioned verify) headerBytes >>= _) = _
  rw [hheader']
  rfl

/-- What some verifier accepts parses. -/
lemma parses_of_accepted {headerBytes : Bytes} {plainProof : PyStr} {nbits certVersion : ℕ}
    {verify : ℕ → M.Header → M.Proof → Option ℕ → Except PyError Bool}
    (h : verifyShare (M.withVersioned verify) headerBytes plainProof nbits (some certVersion)
      = .ok true) :
    ∃ proof header, M.fromBase64 plainProof = .ok proof ∧ M.fromBytes headerBytes = .ok header := by
  obtain ⟨proof, hproof, h⟩ := bind_eq_ok_iff.mp h
  obtain ⟨header, hheader, -⟩ := bind_eq_ok_iff.mp h
  exact ⟨proof, header, hproof, hheader⟩

/-- Two versions give a share the same grade at every verifier only where they are equal. -/
lemma version_eq_of_forall {headerBytes : Bytes} {plainProof : PyStr} {v w : ℕ} (nbits : ℕ)
    (hparses : ∃ proof header, M.fromBase64 plainProof = .ok proof
      ∧ M.fromBytes headerBytes = .ok header)
    (h : ∀ verify,
      verifyShare (M.withVersioned verify) headerBytes plainProof nbits (some v) = .ok true →
      verifyShare (M.withVersioned verify) headerBytes plainProof nbits (some w) = .ok true) :
    w = v := by
  obtain ⟨proof, header, hproof, hheader⟩ := hparses
  -- the verifier that knows one version only
  let verify : ℕ → M.Header → M.Proof → Option ℕ → Except PyError Bool :=
    fun version _ _ _ => .ok (decide (version = v))
  have hgrade := h verify
  rw [verifyShare_withVersioned hproof hheader, verifyShare_withVersioned hproof hheader] at hgrade
  simpa [verify] using hgrade

/-- A node with the same ancestry grades the candidate on the finder's header, at its own version.
The header builder does not use the verifier, so the job is the one of every build. -/
lemma verifyIncoming_withVersioned {calls : List Call} {template : ParentTemplate} {minPayout : ℕ}
    {factor : ℕ+} {now : ℚ} {addr : PyStr} {job : Job (HeaderCtx B M)}
    (hjob : jobFor P (run P calls).chain template minPayout (productionMakeHeader B M) factor now
      addr = .ok job)
    {C : Sharechain}
    (hsame : SameAncestry P (run P calls).chain.entries.get C.entries.get
      job.context.candidate.prevShareId)
    (verify : ℕ → M.Header → M.Proof → Option ℕ → Except PyError Bool) (plainProof : PyStr)
    (certVersion : ℕ) :
    makeVerifyIncoming B (M.withVersioned verify) P C minPayout certVersion job.context.candidate
        plainProof
      = verifyShare (M.withVersioned verify) job.header plainProof (targetToBits job.shareTarget)
        (some certVersion) := by
  have hrec : reconstructShare B (M.withVersioned verify) P C minPayout job.context.candidate
      = .ok (some (job.context.headerCtx.header, job.context.headerCtx.coinbaseTx,
          job.context.payouts)) := reconstructShare_of_job hjob hsame
  have hheader : job.header
      = (M.withVersioned verify).toBytes job.context.headerCtx.header := (header_of_job hjob).1
  rw [makeVerifyIncoming, hrec, ok_bind, hheader, shareTarget_of_job hjob]

/-- **When the verdict is objective.**  Let a finder with a reachable chain build a job and accept
a proof for it, under some verifier.  At a node that holds the same ancestry of the candidate's
parent over the PPLNS window, the production `verify_incoming` accepts the pair, for every verifier
under which the finder accepts it, exactly when the node's template, or its absence, asks for the
certificate version of the finder's job.  Two such nodes give the pair the same verdict, for every
verifier, exactly when they ask for the same version. -/
theorem verdict_objective_iff (B : Bitcoinutils) (M : PearlMining) (P : Params) (calls : List Call)
    (template : ParentTemplate) (minPayout : ℕ) (factor : ℕ+) (now : ℚ) (addr : PyStr)
    (job : Job (HeaderCtx B M))
    (hjob : buildJobFor P (run P calls).chain (some template) minPayout
      (productionMakeHeader B M) factor now addr = .ok (some job))
    (plainProof : PyStr)
    (hfinder : ∃ verify, verifyShare (M.withVersioned verify) job.header plainProof
      (targetToBits job.shareTarget) (some job.context.certVersion) = .ok true)
    (C : Sharechain) (node : Option ParentTemplate)
    (hsame : SameAncestry P (run P calls).chain.entries.get C.entries.get
      job.context.candidate.prevShareId) :
    ((∀ verify, verifyShare (M.withVersioned verify) job.header plainProof
          (targetToBits job.shareTarget) (some job.context.certVersion) = .ok true →
        makeVerifyIncoming B (M.withVersioned verify) P C minPayout
          (certVersionForShare node job.context.candidate) job.context.candidate plainProof
            = .ok true)
        ↔ certVersionForShare node job.context.candidate = job.context.certVersion)
      ∧ ∀ (C' : Sharechain) (node' : Option ParentTemplate),
        SameAncestry P (run P calls).chain.entries.get C'.entries.get
          job.context.candidate.prevShareId →
        ((∀ verify, makeVerifyIncoming B (M.withVersioned verify) P C minPayout
              (certVersionForShare node job.context.candidate) job.context.candidate plainProof
            = makeVerifyIncoming B (M.withVersioned verify) P C' minPayout
              (certVersionForShare node' job.context.candidate) job.context.candidate plainProof)
          ↔ certVersionForShare node job.context.candidate
            = certVersionForShare node' job.context.candidate) := by
  have hne : addr ≠ [] := by
    rintro rfl
    rw [buildJobFor, if_pos rfl] at hjob
    cases hjob
  have hfor := (buildJobFor_eq_ok_iff hne).mp hjob
  have hparses := parses_of_accepted hfinder.choose_spec
  have hverdict := fun verify => verifyIncoming_withVersioned hfor hsame verify plainProof
  refine ⟨⟨fun h => ?_, fun h verify haccepted => ?_⟩, fun C' node' hsame' => ⟨fun h => ?_,
    fun h verify => ?_⟩⟩
  · refine version_eq_of_forall (targetToBits job.shareTarget) hparses fun verify haccepted => ?_
    rw [← hverdict]
    exact h verify haccepted
  · rw [hverdict, h]
    exact haccepted
  · have hverdict' := fun verify => verifyIncoming_withVersioned hfor hsame' verify plainProof
    refine (version_eq_of_forall (targetToBits job.shareTarget) hparses
      fun verify haccepted => ?_).symm
    rw [← hverdict', ← h verify, hverdict]
    exact haccepted
  · rw [hverdict, verifyIncoming_withVersioned hfor hsame', h]

/-- A node that has two more shares than the finder of a job on the last share before them, and no
template, gives the verdict of the finder. -/
theorem verdict_objective_raced :
    ∃ job : Job (HeaderCtx zeroProgram (stockMining fun _ => 0)),
      job.context.payouts = [⟨zeroAddress, blockSubsidy 1⟩] ∧ ∀ verify,
      verifyShare ((stockMining fun _ => 0).withVersioned verify) job.header zeroProof
          (targetToBits job.shareTarget) (some job.context.certVersion) = .ok true →
        makeVerifyIncoming zeroProgram ((stockMining fun _ => 0).withVersioned verify) uncleParams
          (run uncleParams verifierCalls).chain minPayoutGrains
          (certVersionForShare none job.context.candidate) job.context.candidate
          zeroProof = .ok true := by
  obtain ⟨job, hjob, hlen, hcert, hpayouts, hsame⟩ := racedJob
  have hheader : (stockMining fun _ => 0).fromBytes job.header = .ok job.header := if_pos hlen
  refine ⟨job, hpayouts, (verdict_objective_iff zeroProgram (stockMining fun _ => 0) uncleParams
    finderCalls firstTemplate minPayoutGrains 1 0 zeroAddress job hjob zeroProof
    ⟨fun _ _ _ _ => .ok true, ?_⟩ _ none hsame).1.mpr hcert.symm⟩
  exact verifyShare_withVersioned (M := stockMining fun _ => 0) rfl hheader _ _ _

/-- A node whose template asks for the next certificate version refuses a share its finder
verified and added, under a verifier that tells versions apart. -/
theorem verdict_subjective : ¬∀ (M : PearlMining) (calls : List Call) (template : ParentTemplate)
    (factor : ℕ+) (now : ℚ) (addr : PyStr) (job : Job (HeaderCtx zeroProgram M))
    (plainProof : PyStr) (verify : ℕ → M.Header → M.Proof → Option ℕ → Except PyError Bool)
    (C : Sharechain) (node : Option ParentTemplate),
    buildJobFor {} (run {} calls).chain (some template) minPayoutGrains
      (productionMakeHeader zeroProgram M) factor now addr = .ok (some job) →
    verifyShare (M.withVersioned verify) job.header plainProof (targetToBits job.shareTarget)
      (some job.context.certVersion) = .ok true →
    validate {} (run {} calls).chain.entries.get job.context.candidate now = .ok none →
    SameAncestry {} (run {} calls).chain.entries.get C.entries.get
      job.context.candidate.prevShareId →
    makeVerifyIncoming zeroProgram (M.withVersioned verify) {} C minPayoutGrains
      (certVersionForShare node job.context.candidate) job.context.candidate plainProof
        = .ok true := by
  intro h
  obtain ⟨job, hjob, hlen, hcert, -, hcandidate⟩ := firstProductionJob fun _ => 0
  have hheader : (stockMining fun _ => 0).fromBytes job.header = .ok job.header := if_pos hlen
  let verify : ℕ → Bytes → PyStr → Option ℕ → Except PyError Bool :=
    fun version _ _ _ => .ok (decide (version = 1))
  have hgrade : ∀ version, verifyShare ((stockMining fun _ => 0).withVersioned verify) job.header
      zeroProof (targetToBits job.shareTarget) (some version) = .ok (decide (version = 1)) :=
    fun version => verifyShare_withVersioned (M := stockMining fun _ => 0) rfl hheader verify _ _
  have hvalid : validate {} (run {} []).chain.entries.get job.context.candidate 0 = .ok none := by
    rw [hcandidate]
    exact validate_eq_ok_none_iff.mpr
      ⟨_, firstCandidate_encodable.shareId, genesisShare_valid _ _ _ _ le_rfl _⟩
  have haccepted := h (stockMining fun _ => 0) [] firstTemplate 1 0 ['a'] job zeroProof verify
    .empty (some { firstTemplate with requiredCertVersion := 2 }) hjob
    (by rw [hgrade, hcert]; rfl) hvalid (sameAncestry_empty _)
  have hverdict := verifyIncoming_withVersioned (M := stockMining fun _ => 0)
    ((buildJobFor_eq_ok_iff (by simp)).mp hjob) (sameAncestry_empty _) verify zeroProof 2
  have hrefused := haccepted.symm.trans (hverdict.trans (hgrade 2))
  cases hrefused

end P2Pearl
