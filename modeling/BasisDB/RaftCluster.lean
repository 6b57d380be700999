import BasisDB.RaftNode

/-! A cluster of nodes over a network that may lose, reorder and duplicate
messages, with crash-restarts from the state each node persisted last. -/
namespace BasisDB.Raft

/-- Nodes, what each has on disk, and every message emitted so far. A message is
lost when it is never delivered, and duplicated when it is delivered again. -/
structure Cluster where
  nodes : NodeId → RaftNode
  disk : NodeId → Persistent
  net : List Message

/-- One step of a run. -/
inductive Action where
  | tick (n : NodeId)
  | deliver (k : ℕ)
  | timeoutNow (sender receiver : NodeId) (term : ℕ)
  | propose (n : NodeId) (cmd : Command)
  | proposeConfigChange (n : NodeId) (change : ConfigChange)
  | requestReadIndex (n : NodeId)
  | transferLeadership (n target : NodeId)
  | diskWriteComplete (n : NodeId) (index : ℕ)
  | advance (n : NodeId) (appliedTo : ℕ)
  | restart (n : NodeId)

namespace Cluster

/-- Nodes built with `RaftNode::new` over one voter list, with any flags. -/
def init (configs : NodeId → Config) (voters : List NodeId) : Cluster :=
  let node (n : NodeId) := RaftNode.new { configs n with id := n } voters
  { nodes := node
    disk := fun n => (node n).persistent
    net := [] }

def setNode (s : Cluster) (n : NodeId) (node : RaftNode) : Cluster :=
  { s with nodes := Function.update s.nodes n node }

/-- Handle a step's effects: save before sending, as `Effects` asks of its caller. -/
def handleEffects (s : Cluster) (n : NodeId) (r : RaftNode × Effects) : Cluster :=
  { nodes := Function.update s.nodes n r.1
    disk := if r.2.persist then Function.update s.disk n r.1.persistent else s.disk
    net := s.net ++ r.2.messages }

/-- A call that may be refused; a refusal changes nothing. -/
def handleCall {ε α : Type} (s : Cluster) (n : NodeId) : Except ε (α × Effects × RaftNode) → Cluster
  | .ok (_, effects, node) => s.handleEffects n (node, effects)
  | .error _ => s

def deliverMessage (s : Cluster) (msg : Message) : Cluster :=
  s.handleEffects msg.receiver ((s.nodes msg.receiver).step msg)

def step (s : Cluster) : Action → Cluster
  | .tick n => s.handleEffects n (s.nodes n).tick
  | .deliver k =>
    match s.net[k]? with
    | some msg => s.deliverMessage msg
    | none => s
  | .timeoutNow sender receiver term =>
    s.deliverMessage
      { sender := sender, receiver := receiver, term := term, payload := .timeoutNow }
  | .propose n cmd => s.handleCall n ((s.nodes n).propose cmd)
  | .proposeConfigChange n change => s.handleCall n ((s.nodes n).proposeConfigChange change)
  | .requestReadIndex n => s.handleCall n (s.nodes n).requestReadIndex
  | .transferLeadership n target =>
    match (s.nodes n).transferLeadership target with
    | .ok effects => s.handleEffects n (s.nodes n, effects)
    | .error _ => s
  | .diskWriteComplete n index => s.handleEffects n ((s.nodes n).diskWriteComplete index)
  | .advance n appliedTo => s.setNode n ((s.nodes n).advance appliedTo)
  | .restart n => s.setNode n (RaftNode.restore (s.nodes n).core.config (s.disk n))

/-- The state a sequence of actions leads to. -/
def run (s : Cluster) (acts : List Action) : Cluster := acts.foldl step s

end Cluster
end BasisDB.Raft
