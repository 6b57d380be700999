import BasisDB.RaftPlainLog
import BasisDB.RaftNode

/-! The protocol that the code carries out, as small steps of one node against
the set of all messages ever sent. A step of the code is a run of these. -/
namespace BasisDB.Raft

/-- What the protocol sees of a leader: replication progress and read rounds. -/
structure LeaderView where
  matched : NodeId → ℕ
  nextReadId : ℕ
  pending : Option PendingReadIndex
  confirmed : ℕ

inductive RoleView where
  | follower
  | candidate (votes : OrdSet NodeId)
  | leader (l : LeaderView)

/-- A node without its clock, deadlines, send windows and settings. -/
structure View where
  persistent : Persistent
  commitIndex : ℕ
  role : RoleView

namespace View

def term (v : View) : ℕ := v.persistent.term

def log (v : View) : Log := v.persistent.log

def effectiveConfig (v : View) : Configuration :=
  (v.log.configAt v.log.lastIndex).getD v.persistent.bootstrapConfig

def setLog (v : View) (log : Log) : View :=
  { v with persistent := { v.persistent with log := log } }

def lead (v : View) (l : LeaderView) : View := { v with role := .leader l }

/-- An entry of the current term is committed. -/
def TermCommitted (v : View) : Prop := ∃ i, 0 < i ∧ i ≤ v.commitIndex ∧ v.log.termAt i = v.term

end View

/-- What a run is allowed to do beyond the code's own checks: whether
configurations may be appended, whether that has to happen in order, which log an
append request may meet, and which commands a leader may append. -/
structure Guards where
  mode : MembershipMode
  reconfig : Prop
  strict : Prop
  absorb : Message → Log → Prop
  command : Entry → Prop := fun _ => True

/-- Messages that need no change of state to be sent. -/
def Emits (me : NodeId) (v : View) (net : Set Message) (m : Message) : Prop :=
  m.sender = me ∧
  match m.payload with
  | .voteRequest req => m.term = v.term ∧ (∃ votes, v.role = .candidate votes) ∧
      req.lastLogIndex = v.log.lastIndex ∧ req.lastLogTerm = v.log.lastTerm
  | .voteResponse resp => resp.granted = false
  | .appendRequest req => m.term = v.term ∧ (∃ l, v.role = .leader l) ∧
      req.prevLogTerm = v.log.termAt req.prevLogIndex ∧ req.leaderCommit = v.commitIndex ∧
      ∃ stop, req.entries = v.log.slice (req.prevLogIndex + 1) stop
  | .appendResponse resp => resp.success = false
  | .readIndexRequest req => m.term = v.term ∧ ∃ l p, v.role = .leader l ∧ l.pending = some p ∧
      req = { id := p.id, readIndex := p.readIndex }
  | .readIndexResponse resp => m.term = v.term ∧ ∃ q ∈ net, q.term ≤ v.term ∧
      q.payload = .readIndexRequest { id := resp.id, readIndex := resp.readIndex }
  | .installSnapshotRequest _ => False
  | .installSnapshotResponse _ => False
  | .preVoteRequest _ => True
  | .preVoteResponse _ => True
  | .timeoutNow => True

/-- The small steps of node `me`. -/
inductive Micro (g : Guards) (me : NodeId) : View → Set Message → View → Set Message → Prop
  | observe {v net} (t : ℕ) (ht : v.term < t) :
      Micro g me v net
        { v with
          persistent := { v.persistent with term := t, votedFor := none }
          role := .follower } net
  | stepDown {v net} : Micro g me v net { v with role := .follower } net
  | restart {v net} : Micro g me v net { v with commitIndex := 0, role := .follower } net
  | campaign {v net} :
      Micro g me v net
        { v with
          persistent :=
            { v.persistent with
              term := v.term + 1
              votedFor := if v.effectiveConfig.isVoter me then some me else none }
          role := .candidate
            (if v.effectiveConfig.isVoter me then OrdSet.singleton me else OrdSet.empty) } net
  | grant {v net} (m : Message) (req : VoteRequest) (hm : m ∈ net)
      (hp : m.payload = .voteRequest req) (ht : m.term = v.term) (hr : v.role = .follower)
      (hv : v.persistent.votedFor = none ∨ v.persistent.votedFor = some m.sender)
      (hup : v.log.lastTerm < req.lastLogTerm ∨
        (req.lastLogTerm = v.log.lastTerm ∧ v.log.lastIndex ≤ req.lastLogIndex)) :
      Micro g me v net { v with persistent := { v.persistent with votedFor := some m.sender } }
        (insert
          { sender := me, receiver := m.sender, term := v.term
            payload := .voteResponse { granted := true } } net)
  | countVote {v net} (m : Message) (votes : OrdSet NodeId) (hm : m ∈ net)
      (hp : m.payload = .voteResponse { granted := true }) (ht : m.term = v.term)
      (hrec : m.receiver = me) (hr : v.role = .candidate votes) :
      Micro g me v net { v with role := .candidate (votes.insert m.sender) } net
  | win {v net} (votes : OrdSet NodeId) (l : LeaderView) (hr : v.role = .candidate votes)
      (hq : v.effectiveConfig.hasQuorum (fun p => votes.contains p) = true)
      (hmatch : ∀ p, p ≠ me → l.matched p = 0) (hid : l.nextReadId = 1) (hpend : l.pending = none)
      (hconf : l.confirmed = 0) : Micro g me v net (v.lead l) net
  | absorb {v net} (m : Message) (req : AppendRequest) (hm : m ∈ net)
      (hp : m.payload = .appendRequest req) (ht : m.term = v.term) (hr : v.role = .follower)
      (hacc : Follower.accepts v.log req = true) (hg : g.absorb m v.log) (log : Log)
      (hlog : log = (Follower.appendEntries v.log req.entries).1) (c : ℕ)
      (hc : c = if v.commitIndex < req.leaderCommit then min req.leaderCommit log.lastIndex
        else v.commitIndex) :
      Micro g me v net { v.setLog log with commitIndex := c }
        (insert
          { sender := me, receiver := m.sender, term := v.term
            payload := .appendResponse { success := true, lastLogIndex := log.lastIndex } } net)
  | appendCommand {v net} (l : LeaderView) (cmd : Command) (hr : v.role = .leader l)
      (hg : g.command { term := v.term, index := v.log.lastIndex + 1, payload := .command cmd }) :
      Micro g me v net
        (v.setLog (v.log.append
          { term := v.term, index := v.log.lastIndex + 1, payload := .command cmd })) net
  | appendConfig {v net} (l : LeaderView) (c : Configuration) (hr : v.role = .leader l)
      (hg : g.reconfig) (hrule : g.strict → v.TermCommitted ∧
        v.log.pendingConfigIndex v.commitIndex = none ∧ Legal g.mode v.effectiveConfig c) :
      Micro g me v net
        (v.setLog (v.log.append
          { term := v.term, index := v.log.lastIndex + 1, payload := .config c })) net
  | ownMatch {v net} (l : LeaderView) (k : ℕ) (hr : v.role = .leader l) :
      Micro g me v net
        (v.lead { l with matched := Function.update l.matched me k }) net
  | peerMatch {v net} (l : LeaderView) (m : Message) (k : ℕ) (hm : m ∈ net)
      (hp : m.payload = .appendResponse { success := true, lastLogIndex := k })
      (ht : m.term = v.term) (hrec : m.receiver = me) (hr : v.role = .leader l) :
      Micro g me v net
        (v.lead { l with matched := Function.update l.matched m.sender k }) net
  | commit {v net} (l : LeaderView) (i : ℕ) (hr : v.role = .leader l) (hlt : v.commitIndex < i)
      (hle : i ≤ v.log.lastIndex) (hterm : v.log.termAt i = v.term)
      (hq : v.effectiveConfig.hasQuorum (fun p => decide (i ≤ l.matched p)) = true) :
      Micro g me v net { v with commitIndex := i } net
  | startRead {v net} (l : LeaderView) (hr : v.role = .leader l) (hp : l.pending = none)
      (hown : v.TermCommitted)
      (hq : v.effectiveConfig.hasQuorum (fun p => (OrdSet.singleton me).contains p) = false) :
      Micro g me v net
        (v.lead
          { l with
            nextReadId := l.nextReadId + 1
            pending := some
              { id := l.nextReadId
                readIndex := v.commitIndex
                configuration := v.effectiveConfig
                acks := OrdSet.singleton me } }) net
  | readNow {v net} (l : LeaderView) (hr : v.role = .leader l) (hp : l.pending = none)
      (hown : v.TermCommitted)
      (hq : v.effectiveConfig.hasQuorum (fun p => (OrdSet.singleton me).contains p) = true) :
      Micro g me v net
        (v.lead
          { l with
            nextReadId := l.nextReadId + 1
            confirmed := max l.confirmed v.commitIndex }) net
  | ackRead {v net} (l : LeaderView) (p : PendingReadIndex) (m : Message) (hm : m ∈ net)
      (hp : m.payload = .readIndexResponse { id := p.id, readIndex := p.readIndex })
      (ht : m.term = v.term) (hrec : m.receiver = me) (hr : v.role = .leader l)
      (hpend : l.pending = some p)
      (hq : p.configuration.hasQuorum (fun w => (p.acks.insert m.sender).contains w) = false) :
      Micro g me v net
        (v.lead { l with pending := some { p with acks := p.acks.insert m.sender } }) net
  | confirmRead {v net} (l : LeaderView) (p : PendingReadIndex) (m : Message) (hm : m ∈ net)
      (hp : m.payload = .readIndexResponse { id := p.id, readIndex := p.readIndex })
      (ht : m.term = v.term) (hrec : m.receiver = me) (hr : v.role = .leader l)
      (hpend : l.pending = some p)
      (hq : p.configuration.hasQuorum (fun w => (p.acks.insert m.sender).contains w) = true) :
      Micro g me v net
        (v.lead { l with confirmed := max l.confirmed p.readIndex, pending := none }) net
  | emit {v net} (m : Message) (hm : Emits me v net m) : Micro g me v net v (insert m net)

/-- Any number of small steps of one node. -/
def Micros (g : Guards) (me : NodeId) : View × Set Message → View × Set Message → Prop :=
  Relation.ReflTransGen (fun a b => Micro g me a.1 a.2 b.1 b.2)

/-- All nodes and all messages sent. -/
structure World where
  views : NodeId → View
  net : Set Message

namespace World

def set (w : World) (n : NodeId) (v : View) (net : Set Message) : World :=
  { views := Function.update w.views n v, net := net }

inductive Step (g : Guards) : World → World → Prop
  | mk {w : World} {n : NodeId} {v : View} {net : Set Message}
      (h : Micro g n (w.views n) w.net v net) : Step g w (w.set n v net)

theorem set_self (w : World) (n : NodeId) : w.set n (w.views n) w.net = w := by
  simp [set]

@[simp] theorem set_views_self (w : World) (n : NodeId) (v : View) (net : Set Message) :
    (w.set n v net).views n = v := by simp [set]

theorem set_views_ne (w : World) {n p : NodeId} (v : View) (net : Set Message) (h : p ≠ n) :
    (w.set n v net).views p = w.views p := by simp [set, h]

@[simp] theorem set_net (w : World) (n : NodeId) (v : View) (net : Set Message) :
    (w.set n v net).net = net := rfl

/-- The small steps of one node move the world. -/
theorem steps_of_micros {g : Guards} {n : NodeId} {w : World} {b : View × Set Message}
    (h : Micros g n (w.views n, w.net) b) :
    Relation.ReflTransGen (Step g) w (w.set n b.1 b.2) := by
  induction h with
  | refl => rw [set_self]
  | @tail b c _ hstep ih =>
    have hset : w.set n c.1 c.2 = (w.set n b.1 b.2).set n c.1 c.2 := by simp [set]
    rw [hset]
    exact ih.tail (Step.mk (by simpa using hstep))

end World
end BasisDB.Raft
