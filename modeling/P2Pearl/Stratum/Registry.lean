import P2Pearl.Data.Hex
import P2Pearl.Data.OrderedMap
import P2Pearl.Daemon.Submit

/-!
`JobRegistry` of `stratum/server.py`: the jobs the miners may still submit for.

* `JobRegistry.mint`: a job gets the next id, and the oldest jobs beyond the size are dropped.
* `Keeps`: a registry and every job it has minted, which the code does not record: it holds the
  last `max` of them.  `Keeps.mint` is preserved by minting, while the ids do not run out.
* `Keeps.get_eq_some_iff`: a minted job is found exactly while fewer than `max` jobs have been
  minted after it.
* `registry_holds_last`: so a registry holds, finds and ends with the last jobs minted, however
  often the sequence has come round.
-/

namespace P2Pearl

variable {Ctx : Type}

/-- The id of a job: its height and its place in the sequence, both truncated. -/
def jobIdOf (height seq : ℕ) : PyStr :=
  hexDigits 8 (height % 2 ^ 32) ++ '-' :: hexDigits 4 seq

/-- Ids with distinct places in the sequence are distinct. -/
lemma seq_of_jobIdOf {height height' seq seq' : ℕ} (hs : seq < 2 ^ 16) (hs' : seq' < 2 ^ 16)
    (h : jobIdOf height seq = jobIdOf height' seq') : seq = seq' := by
  obtain ⟨-, htail⟩ := List.append_inj h (by simp)
  have hpow : (16 : ℕ) ^ 4 = 2 ^ 16 := by norm_num
  exact hexDigits_inj (hpow ▸ hs) (hpow ▸ hs') (List.cons.inj htail).2

/-- `JobRegistry`. -/
structure JobRegistry (Ctx : Type) where
  jobs : OrderedMap PyStr (StratumJob Ctx)
  seq : ℕ
  max : ℕ

namespace JobRegistry

/-- `JobRegistry(max_size)`. -/
def init (max : ℕ) : JobRegistry Ctx := ⟨.empty, 0, max⟩

/-- `mint`: the registry afterwards and the job. -/
def mint (R : JobRegistry Ctx) (incompleteHeader : Bytes) (shareTarget height : ℕ)
    (context : Option (JobContext Ctx)) : JobRegistry Ctx × StratumJob Ctx :=
  let seq := (R.seq + 1) % 2 ^ 16
  let jobId := jobIdOf height seq
  let job := ⟨jobId, incompleteHeader, shareTarget, height, context⟩
  (⟨(R.jobs.set jobId job).trim R.max, seq, R.max⟩, job)

/-- `get`. -/
def get (R : JobRegistry Ctx) (jobId : PyStr) : Option (StratumJob Ctx) := R.jobs.get jobId

/-- `latest`: the newest of the jobs. -/
def latest (R : JobRegistry Ctx) : Option (StratumJob Ctx) := R.jobs.items.getLast?.map Prod.snd

/-- The arguments of `mint`. -/
structure MintCall (Ctx : Type) where
  incompleteHeader : Bytes
  shareTarget : ℕ
  height : ℕ
  context : Option (JobContext Ctx)

/-- A sequence of calls of `mint`: the registry afterwards and the jobs they returned. -/
def mintAll (R : JobRegistry Ctx) (calls : List (MintCall Ctx)) :
    JobRegistry Ctx × List (StratumJob Ctx) :=
  calls.foldl (fun s c =>
    let r := s.1.mint c.incompleteHeader c.shareTarget c.height c.context
    (r.1, s.2 ++ [r.2])) (R, [])

lemma mintAll_concat (R : JobRegistry Ctx) (calls : List (MintCall Ctx)) (c : MintCall Ctx) :
    R.mintAll (calls ++ [c]) =
      let r := (R.mintAll calls).1.mint c.incompleteHeader c.shareTarget c.height c.context
      (r.1, (R.mintAll calls).2 ++ [r.2]) := by
  rw [mintAll, List.foldl_append]
  rfl

lemma length_mintAll (R : JobRegistry Ctx) (calls : List (MintCall Ctx)) :
    (R.mintAll calls).2.length = calls.length := by
  induction calls using List.reverseRecOn with
  | nil => rfl
  | append_singleton calls c ih =>
      rw [mintAll_concat, List.length_append, List.length_append, ih]
      rfl

lemma max_mintAll (R : JobRegistry Ctx) (calls : List (MintCall Ctx)) :
    (R.mintAll calls).1.max = R.max := by
  induction calls using List.reverseRecOn with
  | nil => rfl
  | append_singleton calls c ih =>
      rw [mintAll_concat]
      exact ih

end JobRegistry

/-- A registry that holds the last `max` of the jobs it has minted, oldest first. -/
structure Keeps (R : JobRegistry Ctx) (minted : List (StratumJob Ctx)) : Prop where
  items : R.jobs.items = (minted.drop (minted.length - R.max)).map fun job => (job.jobId, job)
  seq : R.seq = minted.length % 2 ^ 16
  jobId : ∀ n job, minted[n]? = some job → job.jobId = jobIdOf job.height ((n + 1) % 2 ^ 16)

namespace Keeps

variable {R : JobRegistry Ctx} {minted : List (StratumJob Ctx)}

lemma init (max : ℕ) : Keeps (.init max : JobRegistry Ctx) [] := ⟨by simp; rfl, rfl, by simp⟩

/-- Jobs that are minted closely one after the other have distinct ids. -/
lemma jobId_inj (h : Keeps R minted) {n m : ℕ} {job job' : StratumJob Ctx}
    (hn : minted[n]? = some job) (hm : minted[m]? = some job') (hid : job.jobId = job'.jobId)
    (hnm : n < m + 2 ^ 16) (hmn : m < n + 2 ^ 16) : n = m := by
  rw [h.jobId n job hn, h.jobId m job' hm] at hid
  have hseq := seq_of_jobIdOf (Nat.mod_lt _ (by norm_num)) (Nat.mod_lt _ (by norm_num)) hid
  omega

/-- What is held are the minted jobs from some place on. -/
lemma mem_items_iff (h : Keeps R minted) {k : PyStr} {job : StratumJob Ctx} :
    (k, job) ∈ R.jobs.items
      ↔ k = job.jobId ∧ ∃ n, minted[n]? = some job ∧ minted.length ≤ n + R.max := by
  rw [h.items, List.mem_map]
  simp only [Prod.mk.injEq, List.mem_iff_getElem?, List.getElem?_drop]
  constructor
  · rintro ⟨_, ⟨i, hi⟩, rfl, rfl⟩
    exact ⟨rfl, _, hi, by omega⟩
  · rintro ⟨rfl, n, hn, hle⟩
    have hlt := (List.getElem?_eq_some_iff.mp hn).1
    refine ⟨job, ⟨n - (minted.length - R.max), ?_⟩, rfl, rfl⟩
    rw [show minted.length - R.max + (n - (minted.length - R.max)) = n by omega, hn]

/-- **The lifetime of a job**: a minted job is found exactly while fewer than `max` jobs have been
minted after it, as long as its id has not come round again. -/
lemma get_eq_some_iff (h : Keeps R minted) (hmax : R.max < 2 ^ 16) {n : ℕ} {job : StratumJob Ctx}
    (hn : minted[n]? = some job) (hage : minted.length ≤ n + 2 ^ 16) :
    R.get job.jobId = some job ↔ minted.length ≤ n + R.max := by
  rw [JobRegistry.get, OrderedMap.get_eq_some_iff, h.mem_items_iff]
  constructor
  · rintro ⟨-, m, hm, hle⟩
    have hlt := (List.getElem?_eq_some_iff.mp hm).1
    have hnlt := (List.getElem?_eq_some_iff.mp hn).1
    have heq := h.jobId_inj hn hm rfl (by omega) (by omega)
    omega
  · exact fun hle => ⟨rfl, n, hn, hle⟩

/-- The id of the next job is new while the ids do not run out. -/
lemma get_next (h : Keeps R minted) (hmax : R.max < 2 ^ 16) (height : ℕ) :
    R.jobs.get (jobIdOf height ((R.seq + 1) % 2 ^ 16)) = none := by
  rw [Option.eq_none_iff_forall_ne_some]
  intro job hjob
  obtain ⟨hid, n, hn, hle⟩ := h.mem_items_iff.mp (OrderedMap.get_eq_some_iff.mp hjob)
  have hlt := (List.getElem?_eq_some_iff.mp hn).1
  rw [h.jobId n job hn, h.seq] at hid
  have hseq := seq_of_jobIdOf (Nat.mod_lt _ (by norm_num)) (Nat.mod_lt _ (by norm_num)) hid
  omega

/-- Minting a job keeps the last `max` jobs. -/
lemma mint (h : Keeps R minted) (hmax : R.max < 2 ^ 16) (incompleteHeader : Bytes)
    (shareTarget height : ℕ) (context : Option (JobContext Ctx)) :
    Keeps (R.mint incompleteHeader shareTarget height context).1
      (minted ++ [(R.mint incompleteHeader shareTarget height context).2]) := by
  generalize hjob : (R.mint incompleteHeader shareTarget height context).2 = job
  have hid : job.jobId = jobIdOf job.height ((R.seq + 1) % 2 ^ 16) := by rw [← hjob]; rfl
  have hjobs : (R.mint incompleteHeader shareTarget height context).1.jobs
      = (R.jobs.set job.jobId job).trim R.max := by rw [← hjob]; rfl
  refine ⟨?_, ?_, fun n job' hn => ?_⟩
  · have hfresh : R.jobs.get job.jobId = none := hid ▸ h.get_next hmax job.height
    have hlen : ((minted.drop (minted.length - R.max)).map fun job => (job.jobId, job)).length
        = minted.length - (minted.length - R.max) := by rw [List.length_map, List.length_drop]
    have hmap : [(job.jobId, job)] = [job].map fun job => (job.jobId, job) := rfl
    rw [hjobs, OrderedMap.items_trim, OrderedMap.size, OrderedMap.items_set_of_fresh _ hfresh,
      h.items, List.length_append, hlen, hmap, ← List.map_append, ← List.map_drop,
      ← List.drop_append_of_le_length (Nat.sub_le _ _), List.drop_drop]
    refine congrArg (fun k => (List.drop k (minted ++ [job])).map fun job => (job.jobId, job)) ?_
    show _ = (minted ++ [job]).length - R.max
    rw [List.length_append, List.length_singleton, List.length_map, List.length_singleton]
    omega
  · show (R.seq + 1) % 2 ^ 16 = _
    rw [h.seq, List.length_append, List.length_singleton, Nat.mod_add_mod]
  · by_cases hlt : n < minted.length
    · rw [List.getElem?_append_left hlt] at hn
      exact h.jobId n job' hn
    · have hlen := (List.getElem?_eq_some_iff.mp hn).1
      rw [List.length_append, List.length_singleton] at hlen
      obtain rfl : n = minted.length := by omega
      rw [List.getElem?_concat_length, Option.some.injEq] at hn
      rw [← hn, hid, h.seq, Nat.mod_add_mod]

/-- A sequence of calls keeps the last `max` of the jobs they return. -/
lemma mintAll {max : ℕ} (hmax : max < 2 ^ 16) (calls : List (JobRegistry.MintCall Ctx)) :
    Keeps ((JobRegistry.init max).mintAll calls).1 ((JobRegistry.init max).mintAll calls).2 := by
  induction calls using List.reverseRecOn with
  | nil => exact init max
  | append_singleton calls c ih =>
      rw [JobRegistry.mintAll_concat]
      refine ih.mint ?_ _ _ _ _
      rwa [JobRegistry.max_mintAll]

end Keeps

open JobRegistry in
/-- **The registry is the last jobs.**  After any sequence of calls of `mint`, the registry holds
the last `max` jobs they returned, or all where there are fewer, oldest first and under distinct
ids; `get` finds these jobs, each under its own id, and nothing else; and `latest` is the last one
minted. -/
theorem registry_holds_last {max : ℕ} (hpos : 1 ≤ max) (hmax : max ≤ 65535)
    (calls : List (MintCall Ctx)) :
    let R := ((init max).mintAll calls).1
    let minted := ((init max).mintAll calls).2
    let held := minted.drop (calls.length - max)
    minted.length = calls.length ∧ held.length = min calls.length max
      ∧ R.jobs.items = held.map (fun job => (job.jobId, job))
      ∧ (held.map StratumJob.jobId).Nodup
      ∧ (∀ job ∈ held, R.get job.jobId = some job)
      ∧ (∀ jobId job, R.get jobId = some job → job ∈ held ∧ job.jobId = jobId)
      ∧ (∀ jobId ∉ held.map StratumJob.jobId, R.get jobId = none)
      ∧ R.latest = minted.getLast? := by
  intro R minted held
  have hlen : minted.length = calls.length := length_mintAll _ _
  have hitems : R.jobs.items = held.map fun job => (job.jobId, job) := by
    have hkeeps : Keeps R minted := Keeps.mintAll (by omega) calls
    rw [hkeeps.items, max_mintAll, length_mintAll]
    rfl
  have hkeys : R.jobs.items.map Prod.fst = held.map StratumJob.jobId := by
    rw [hitems, List.map_map]
    rfl
  have hget : ∀ jobId job, R.get jobId = some job ↔ job ∈ held ∧ job.jobId = jobId := by
    intro jobId job
    rw [JobRegistry.get, OrderedMap.get_eq_some_iff, hitems]
    simp [and_comm]
  refine ⟨hlen, ?_, hitems, hkeys ▸ R.jobs.nodup, fun job hjob => (hget _ _).mpr ⟨hjob, rfl⟩,
    fun jobId job => (hget jobId job).mp, fun jobId hnot => ?_, ?_⟩
  · rw [List.length_drop, hlen]
    omega
  · exact OrderedMap.get_eq_none_iff.mpr (hkeys ▸ hnot)
  · rw [latest, hitems, List.getLast?_map, Option.map_map]
    change held.getLast?.map id = _
    rw [Option.map_id, id_eq, List.getLast?_drop, hlen]
    split_ifs with hnone
    · -- nothing has been minted
      rw [List.length_eq_zero_iff.mp (show minted.length = 0 by omega), List.getLast?_nil]
    · rfl

/-- Three jobs in a registry of two: the first is gone, and the last is the latest. -/
theorem registry_holds_last_three :
    let job : ℕ → StratumJob Unit := fun n => ⟨jobIdOf n n, [], 1, n, none⟩
    let R := ((JobRegistry.init 2).mintAll [⟨[], 1, 1, none⟩, ⟨[], 1, 2, none⟩, ⟨[], 1, 3, none⟩]).1
    R.get (job 1).jobId = none ∧ R.latest = some (job 3) := by
  intro job R
  have h := @registry_holds_last Unit 2 (by norm_num) (by norm_num)
    [⟨[], 1, 1, none⟩, ⟨[], 1, 2, none⟩, ⟨[], 1, 3, none⟩]
  exact ⟨h.2.2.2.2.2.2.1 (job 1).jobId (by decide), h.2.2.2.2.2.2.2⟩

end P2Pearl
