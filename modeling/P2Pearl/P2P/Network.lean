import P2Pearl.P2P.Handlers

/-!
Several `P2PNode`s that are connected to each other, and the messages between them.

* `Topology`: who is connected to whom, by the numbers the nodes have for their peers.
* `Network`: the nodes and what is in flight; messages arrive in any order, none is lost.
* `Network.step`: a message arrives, or something happens at a node that is not a message.
-/

namespace P2Pearl

variable {ι : Type}

/-- The connections of a network: a peer of a node is a node, which has a number for it as well. -/
structure Topology (ι : Type) where
  link : ι → ℕ → Option (ι × ℕ)
  symm : ∀ i p j q, link i p = some (j, q) → link j q = some (i, p)

/-- A message in flight; `peer` is the number its destination has for its source. -/
structure InFlight (ι : Type) where
  source : ι
  dest : ι
  peer : ℕ
  message : Message

/-- What a node sends to its peers, on its way. -/
def Topology.route (T : Topology ι) (i : ι) (out : List (ℕ × Message)) : List (InFlight ι) :=
  out.filterMap fun m => (T.link i m.1).map fun q => ⟨i, q.1, q.2, m.2⟩

/-- The nodes that a node is connected to, by its list of peers. -/
def Topology.near (T : Topology ι) (peers : ι → List ℕ) (i : ι) : Multiset ι :=
  ((peers i).filterMap fun p => (T.link i p).map Prod.fst : List ι)

/-- A network of nodes. -/
structure Network (ι : Type) where
  node : ι → P2PNode
  inFlight : List (InFlight ι)

namespace Network

/-- What can happen: the `k`-th message in flight arrives, with the clock readings of its handler,
or a node does something by itself. -/
inductive Event (ι : Type) where
  | deliver (k : ℕ) (clock : ℕ → ℚ)
  | own (i : ι) (e : P2PNode.Event)

variable [DecidableEq ι] (T : Topology ι) (cfg : ι → P2PConfig) (W : Network ι)

/-- A node has reacted to an event. -/
def after (i : ι) (inFlight : List (InFlight ι)) (r : P2PNode × List (ℕ × Message)) : Network ι :=
  ⟨Function.update W.node i r.1, inFlight ++ T.route i r.2⟩

/-- One event, where it can happen. -/
def step : Event ι → Option (Network ι)
  | .deliver k clock =>
      W.inFlight[k]?.bind fun m =>
        ((W.node m.dest).react (cfg m.dest) (.receive m.peer m.message.incoming clock)).map
          (W.after T m.dest (W.inFlight.eraseIdx k))
  -- the connections stay as they are, and there are no messages but those of the nodes
  | .own _ .connect | .own _ (.disconnect _) | .own _ (.receive ..) => none
  | .own i e => ((W.node i).react (cfg i) e).map (W.after T i W.inFlight)

end Network

end P2Pearl
