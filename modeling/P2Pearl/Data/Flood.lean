import Mathlib.Tactic

/-!
Flooding by announcements: how an item spreads over a network whose nodes announce it, ask for it
and hand it over.

* `Flood.Step`: a node that has the item announces it once; a node that hears of it, and neither has
  it nor asks for it already, asks the one it heard it from; a node that is asked answers.
* `Flood.Sound`: what holds in every state; `Sound.step` is preserved by a step.
* `Sound.reaches`: once nothing is in flight and nothing is left to announce, every node that can
  be reached from the origin has the item.
* `rank_lt_of_step`: every step lowers a rank, which starts at three for each node and one for each
  of its neighbours.
-/

namespace P2Pearl

variable {ι : Type}

/-- A packet of a flood, with the node it comes from and the one it goes to. -/
inductive FloodPacket (ι : Type) where
  | announce (source dest : ι)
  | ask (source dest : ι)
  | answer (source dest : ι)

namespace FloodPacket

/-- The node that has the item. -/
def holder : FloodPacket ι → ι
  | announce source _ => source
  | ask _ dest => dest
  | answer source _ => source

/-- The node that has asked for it. -/
def requester : FloodPacket ι → Option ι
  | announce _ _ => none
  | ask source _ => some source
  | answer _ dest => some dest

/-- The item itself is in the packet. -/
def answers : FloodPacket ι → Bool
  | answer _ _ => true
  | _ => false

/-- What a packet leads to. -/
def weight : FloodPacket ι → ℕ
  | announce _ _ => 1
  | ask _ _ => 2
  | answer _ _ => 1

end FloodPacket

/-- A flood of one item: the nodes that have it, those of them that have not announced it yet,
those that have asked for it, and the packets in flight. -/
@[ext]
structure Flood (ι : Type) where
  has : Finset ι
  due : Finset ι
  asking : Finset ι
  packets : Multiset (FloodPacket ι)

namespace Flood

/-- The item is nowhere. -/
def empty : Flood ι := ⟨∅, ∅, ∅, 0⟩

variable [DecidableEq ι]

/-- A step of a flood over the neighbours `near`. -/
inductive Step (near : ι → Multiset ι) (origin : ι) : Flood ι → Flood ι → Prop
  /-- The item comes into being. -/
  | originate {F : Flood ι} (new : origin ∉ F.has) : Step near origin F
      { F with has := insert origin F.has, due := insert origin F.due }
  /-- A node announces the item to its neighbours, or to those that may not have it. -/
  | announce {F : Flood ι} {i : ι} {sent : Multiset ι} (due : i ∈ F.due) (to_near : sent ≤ near i)
      (others : ∀ j ∈ near i, j ∈ sent ∨ j ∈ F.has) : Step near origin F
      { F with due := F.due.erase i, packets := F.packets + sent.map (.announce i) }
  /-- A node that has the item, or asks for it already, ignores an announcement. -/
  | ignore {F : Flood ι} {i j : ι} {rest : Multiset (FloodPacket ι)}
      (packet : F.packets = .announce i j ::ₘ rest) (known : j ∈ F.has ∨ j ∈ F.asking) :
      Step near origin F { F with packets := rest }
  /-- Any other asks for the item. -/
  | ask {F : Flood ι} {i j : ι} {rest : Multiset (FloodPacket ι)}
      (packet : F.packets = .announce i j ::ₘ rest) (new : j ∉ F.has) (idle : j ∉ F.asking) :
      Step near origin F { F with
        asking := insert j F.asking, packets := .ask j i ::ₘ rest }
  /-- A node that is asked hands the item over. -/
  | answer {F : Flood ι} {i j : ι} {rest : Multiset (FloodPacket ι)}
      (packet : F.packets = .ask j i ::ₘ rest) : Step near origin F
      { F with packets := .answer i j ::ₘ rest }
  /-- A node that asked for the item has it, and has yet to announce it. -/
  | learn {F : Flood ι} {i j : ι} {rest : Multiset (FloodPacket ι)}
      (packet : F.packets = .answer i j ::ₘ rest) (asked : j ∈ F.asking) : Step near origin F
      ⟨insert j F.has, insert j F.due, F.asking.erase j, rest⟩

/-- What holds in every state of a flood. -/
structure Sound (near : ι → Multiset ι) (origin : ι) (F : Flood ι) : Prop where
  origin : origin ∉ F.has → F = empty
  due : F.due ⊆ F.has
  asking : ∀ j ∈ F.asking, j ∉ F.has
  /-- Packets about an item come from nodes that have it, or go to them. -/
  holder : ∀ p ∈ F.packets, p.holder ∈ F.has ∧ (p.answers = false → p.holder ∉ F.due)
  /-- Who asks is about to be answered, once. -/
  served : ∀ j, F.packets.countP (fun p => p.requester = some j) = if j ∈ F.asking then 1 else 0
  /-- Who has announced the item has told all its neighbours. -/
  told : ∀ i ∈ F.has, i ∉ F.due → ∀ j ∈ near i,
    j ∈ F.has ∨ j ∈ F.asking ∨ .announce i j ∈ F.packets

variable {near : ι → Multiset ι} {origin : ι} {F F' : Flood ι}

lemma sound_empty : Sound near origin empty where
  origin _ := rfl
  due := Finset.Subset.refl _
  asking := by simp [empty]
  holder := by simp [empty]
  served := by simp [empty]
  told := by simp [empty]

/-- Who is about to be answered asks. -/
lemma Sound.asks (h : Sound near origin F) {p : FloodPacket ι} {j : ι} (hp : p ∈ F.packets)
    (hj : p.requester = some j) : j ∈ F.asking := by
  by_contra hnot
  have hcount := h.served j
  rw [if_neg hnot, Multiset.countP_eq_zero] at hcount
  exact hcount p hp hj

/-- Nothing has happened to a flood before the item is at its origin. -/
lemma Sound.origin_mem (h : Sound near origin F) {i : ι} (hi : i ∈ F.has) : origin ∈ F.has := by
  by_contra hnot
  rw [h.origin hnot] at hi
  exact absurd hi (Finset.notMem_empty i)

/-- **A step** keeps a flood sound. -/
lemma Sound.step (h : Sound near origin F) (hstep : Step near origin F F') :
    Sound near origin F' := by
  cases hstep with
  | originate new =>
      obtain rfl := h.origin new
      exact ⟨fun hnot => absurd (Finset.mem_insert_self _ _) hnot, by simp [empty],
        by simp [empty], by simp [empty], by simp [empty], by simp [empty]⟩
  | @announce i sent due to_near others =>
      refine ⟨fun hnot => absurd (h.origin_mem (h.due due)) hnot,
        (Finset.erase_subset _ _).trans h.due, h.asking, fun p hp => ?_, fun j => ?_,
        fun k hk hdue j hj => ?_⟩
      · rcases Multiset.mem_add.mp hp with hp | hp
        · exact ⟨(h.holder p hp).1, fun ha hd =>
            (h.holder p hp).2 ha (Finset.mem_of_mem_erase hd)⟩
        · obtain ⟨j, -, rfl⟩ := Multiset.mem_map.mp hp
          exact ⟨h.due due, fun _ hd => Finset.notMem_erase _ _ hd⟩
      · rw [Multiset.countP_add, h.served j, Nat.add_eq_left, Multiset.countP_eq_zero]
        intro p hp
        obtain ⟨k, -, rfl⟩ := Multiset.mem_map.mp hp
        exact fun he => by cases he
      · by_cases hki : k = i
        · subst hki
          rcases others j hj with hin | hhas
          · exact Or.inr (Or.inr (Multiset.mem_add.mpr (Or.inr (Multiset.mem_map_of_mem _ hin))))
          · exact Or.inl hhas
        · have hdue' : k ∉ F.due := fun hd => hdue (Finset.mem_erase.mpr ⟨hki, hd⟩)
          exact (h.told k hk hdue' j hj).imp_right (Or.imp_right fun hin =>
            Multiset.mem_add.mpr (Or.inl hin))
  | @ignore i j rest packet known =>
      refine ⟨fun hnot => ?_, h.due, h.asking, fun p hp => ?_, fun k => ?_,
        fun k hk hdue l hl => ?_⟩
      · have hnil := h.origin hnot
        rw [hnil] at packet
        exact absurd packet.symm (Multiset.cons_ne_zero)
      · exact h.holder p (packet ▸ Multiset.mem_cons_of_mem hp)
      · rw [← h.served k, packet, Multiset.countP_cons_of_neg]
        exact fun he => by cases he
      · rcases h.told k hk hdue l hl with hin | hin | hin
        · exact Or.inl hin
        · exact Or.inr (Or.inl hin)
        · rw [packet] at hin
          rcases Multiset.mem_cons.mp hin with he | hin
          · cases he
            exact known.imp_right Or.inl
          · exact Or.inr (Or.inr hin)
  | @ask i j rest packet new idle =>
      have hi : i ∈ F.has ∧ i ∉ F.due :=
        (h.holder (.announce i j) (packet ▸ Multiset.mem_cons_self _ _)).imp_right fun hd => hd rfl
      refine ⟨fun hnot => absurd (h.origin_mem hi.1) hnot, h.due, fun k hk => ?_, fun p hp => ?_,
        fun k => ?_, fun k hk hdue l hl => ?_⟩
      · rcases Finset.mem_insert.mp hk with rfl | hk
        · exact new
        · exact h.asking k hk
      · rcases Multiset.mem_cons.mp hp with rfl | hp
        · exact ⟨hi.1, fun _ => hi.2⟩
        · exact h.holder p (packet ▸ Multiset.mem_cons_of_mem hp)
      · have hserved := h.served k
        rw [packet, Multiset.countP_cons_of_neg _ (fun he => by cases he)] at hserved
        rw [Multiset.countP_cons, hserved]
        by_cases hkj : k = j
        · subst hkj
          simp [idle, FloodPacket.requester]
        · have hne : ¬(FloodPacket.ask j i).requester = some k := fun he =>
            hkj (Option.some.inj he).symm
          rw [if_neg hne, add_zero]
          simp [hkj]
      · rcases h.told k hk hdue l hl with hin | hin | hin
        · exact Or.inl hin
        · exact Or.inr (Or.inl (Finset.mem_insert_of_mem hin))
        · rw [packet] at hin
          rcases Multiset.mem_cons.mp hin with he | hin
          · cases he
            exact Or.inr (Or.inl (Finset.mem_insert_self _ _))
          · exact Or.inr (Or.inr (Multiset.mem_cons_of_mem hin))
  | @answer i j rest packet =>
      have hi := h.holder (.ask j i) (packet ▸ Multiset.mem_cons_self _ _)
      refine ⟨fun hnot => absurd (h.origin_mem hi.1) hnot, h.due, h.asking, fun p hp => ?_,
        fun k => ?_, fun k hk hdue l hl => ?_⟩
      · rcases Multiset.mem_cons.mp hp with rfl | hp
        · exact ⟨hi.1, fun he => by cases he⟩
        · exact h.holder p (packet ▸ Multiset.mem_cons_of_mem hp)
      · rw [← h.served k, packet, Multiset.countP_cons, Multiset.countP_cons]
        rfl
      · refine (h.told k hk hdue l hl).imp_right (Or.imp_right fun hin => ?_)
        rw [packet] at hin
        rcases Multiset.mem_cons.mp hin with he | hin
        · cases he
        · exact Multiset.mem_cons_of_mem hin
  | @learn i j rest packet asked =>
      have hi := h.holder (.answer i j) (packet ▸ Multiset.mem_cons_self _ _)
      refine ⟨fun hnot => absurd (Finset.mem_insert_of_mem (h.origin_mem hi.1)) hnot,
        Finset.insert_subset_insert _ h.due, fun k hk => ?_, fun p hp => ?_, fun k => ?_,
        fun k hk hdue l hl => ?_⟩
      · obtain ⟨hne, hk⟩ := Finset.mem_erase.mp hk
        rw [Finset.mem_insert, not_or]
        exact ⟨hne, h.asking k hk⟩
      · have hp' := h.holder p (packet ▸ Multiset.mem_cons_of_mem hp)
        refine ⟨Finset.mem_insert_of_mem hp'.1, fun ha hd => ?_⟩
        rcases Finset.mem_insert.mp hd with he | hd
        · -- a node that asks has announced nothing
          exact h.asking j asked (he ▸ hp'.1)
        · exact hp'.2 ha hd
      · have hserved := h.served k
        rw [packet, Multiset.countP_cons] at hserved
        by_cases hkj : k = j
        · subst hkj
          rw [if_pos (show (FloodPacket.answer i k).requester = some k from rfl),
            if_pos asked] at hserved
          rw [if_neg (Finset.notMem_erase _ _)]
          exact Nat.add_right_cancel hserved
        · have hne : ¬(FloodPacket.answer i j).requester = some k := fun he =>
            hkj (Option.some.inj he).symm
          rw [if_neg hne, add_zero] at hserved
          simp [hserved, hkj]
      · rw [Finset.mem_insert, not_or] at hdue
        have hkF : k ∈ F.has := (Finset.mem_insert.mp hk).resolve_left hdue.1
        rcases h.told k hkF hdue.2 l hl with hin | hin | hin
        · exact Or.inl (Finset.mem_insert_of_mem hin)
        · by_cases hlj : l = j
          · exact Or.inl (hlj ▸ Finset.mem_insert_self _ _)
          · exact Or.inr (Or.inl (Finset.mem_erase.mpr ⟨hlj, hin⟩))
        · rw [packet] at hin
          rcases Multiset.mem_cons.mp hin with he | hin
          · cases he
          · exact Or.inr (Or.inr hin)

/-- **Flooding reaches everyone**: once nothing is in flight and nothing is left to announce, every
node that can be reached from the origin has the item. -/
lemma Sound.reaches (h : Sound near origin F) (ho : origin ∈ F.has) (hpackets : F.packets = 0)
    (hdue : F.due = ∅) {i : ι} (hpath : Relation.ReflTransGen (fun i j => j ∈ near i) origin i) :
    i ∈ F.has := by
  induction hpath with
  | refl => exact ho
  | @tail j k _ hnear ih =>
      rcases h.told j ih (hdue ▸ Finset.notMem_empty j) k hnear with hhas | hasks | hin
      · exact hhas
      · have hserved := h.served k
        rw [hpackets, if_pos hasks] at hserved
        cases hserved
      · rw [hpackets] at hin
        exact absurd hin (Multiset.notMem_zero _)

/-! ### The rank of a flood -/

omit [DecidableEq ι] in
lemma sum_weight_cons (p : FloodPacket ι) (rest : Multiset (FloodPacket ι)) :
    ((p ::ₘ rest).map FloodPacket.weight).sum
      = p.weight + (rest.map FloodPacket.weight).sum := by
  rw [Multiset.map_cons, Multiset.sum_cons]

omit [DecidableEq ι] in
lemma sum_weight_announce (i : ι) (sent : Multiset ι) :
    ((sent.map (FloodPacket.announce i)).map FloodPacket.weight).sum = sent.card := by
  have hone : FloodPacket.weight ∘ FloodPacket.announce i = Function.const ι 1 := rfl
  rw [Multiset.map_map, hone, Multiset.map_const, Multiset.sum_replicate, smul_eq_mul, mul_one]

section Rank

variable [Fintype ι]

/-- What a node has yet to do for the item. -/
def weight (near : ι → Multiset ι) (F : Flood ι) (i : ι) : ℕ :=
  if i ∈ F.has then (if i ∈ F.due then (near i).card + 1 else 0)
  else if i ∈ F.asking then (near i).card + 1 else (near i).card + 3

/-- What is left to do for the item, by nodes and by packets. -/
def rank (near : ι → Multiset ι) (F : Flood ι) : ℕ :=
  ∑ i, F.weight near i + (F.packets.map FloodPacket.weight).sum

/-- Where two weights differ at one node only, so do their sums. -/
lemma sum_weight_of_eq (w w' : ι → ℕ) (i : ι) (h : ∀ k, k ≠ i → w' k = w k) :
    ∑ k, w' k + w i = ∑ k, w k + w' i := by
  have hoff : ∑ k ∈ Finset.univ.erase i, w' k = ∑ k ∈ Finset.univ.erase i, w k :=
    Finset.sum_congr rfl fun k hk => h k (Finset.ne_of_mem_erase hk)
  have hw := Finset.add_sum_erase Finset.univ w (Finset.mem_univ i)
  have hw' := Finset.add_sum_erase Finset.univ w' (Finset.mem_univ i)
  omega

/-- **A step** lowers the rank. -/
lemma rank_lt_of_step (h : Sound near origin F) (hstep : Step near origin F F') :
    F'.rank near < F.rank near := by
  cases hstep with
  | originate new =>
      have hidle : origin ∉ F.asking := by rw [h.origin new]; exact Finset.notMem_empty _
      have hsum := sum_weight_of_eq (F.weight near)
        (weight near { F with has := insert origin F.has, due := insert origin F.due }) origin
        fun k hk => by simp [weight, hk]
      have hold : F.weight near origin = (near origin).card + 3 := by simp [weight, new, hidle]
      have hnew : weight near { F with
          has := insert origin F.has, due := insert origin F.due } origin
          = (near origin).card + 1 := by simp [weight]
      rw [rank, rank]
      dsimp only
      omega
  | @announce i sent due to_near others =>
      have hsum := sum_weight_of_eq (F.weight near) (weight near { F with
          due := F.due.erase i, packets := F.packets + sent.map (.announce i) }) i
        fun k hk => by simp [weight, hk]
      have hold : F.weight near i = (near i).card + 1 := by simp [weight, h.due due, due]
      have hnew : weight near { F with
          due := F.due.erase i, packets := F.packets + sent.map (.announce i) } i = 0 := by
        simp [weight, h.due due]
      have hcard := Multiset.card_le_card to_near
      rw [rank, rank, Multiset.map_add, Multiset.sum_add, sum_weight_announce]
      omega
  | @ignore i j rest packet known =>
      rw [rank, rank, packet, sum_weight_cons]
      exact Nat.add_lt_add_left (Nat.lt_add_of_pos_left Nat.one_pos) _
  | @ask i j rest packet new idle =>
      have hsum := sum_weight_of_eq (F.weight near) (weight near { F with
          asking := insert j F.asking, packets := .ask j i ::ₘ rest }) j
        fun k hk => by simp [weight, hk]
      have hold : F.weight near j = (near j).card + 3 := by simp [weight, new, idle]
      have hnew : weight near { F with
          asking := insert j F.asking, packets := .ask j i ::ₘ rest } j = (near j).card + 1 := by
        simp [weight, new]
      have hask : (FloodPacket.ask j i).weight = 2 := rfl
      have hann : (FloodPacket.announce i j).weight = 1 := rfl
      rw [rank, rank, packet, sum_weight_cons, sum_weight_cons]
      omega
  | @answer i j rest packet =>
      rw [rank, rank, packet, sum_weight_cons, sum_weight_cons]
      change _ + (1 + _) < _ + (2 + _)
      exact Nat.add_lt_add_left (by omega) _
  | @learn i j rest packet asked =>
      have hnot := h.asking j asked
      have hsum := sum_weight_of_eq (F.weight near)
        (weight near ⟨insert j F.has, insert j F.due, F.asking.erase j, rest⟩) j
        fun k hk => by simp [weight, hk]
      have hold : F.weight near j = (near j).card + 1 := by simp [weight, hnot, asked]
      have hnew : weight near ⟨insert j F.has, insert j F.due, F.asking.erase j, rest⟩ j
          = (near j).card + 1 := by simp [weight]
      have hans : (FloodPacket.answer i j).weight = 1 := rfl
      rw [rank, rank, packet, sum_weight_cons]
      dsimp only
      omega

/-- Before a flood, three is left to do for each node, and one for each of its neighbours. -/
lemma rank_empty : rank near (empty : Flood ι) = ∑ i, ((near i).card + 3) := by
  simp [rank, weight, empty]

end Rank

end Flood

end P2Pearl
