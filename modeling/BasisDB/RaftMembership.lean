import BasisDB.OrdSet

/-! Cluster membership: simple and joint configurations, the quorum test, and
the validated changes that lead from one configuration to the next. -/
namespace BasisDB.Raft

/-- `u64` in the source, as are terms and log indices. -/
abbrev NodeId := ℕ

inductive MembershipMode where
  | singleServer
  | jointConsensus
  deriving DecidableEq, Repr

inductive Configuration where
  | simple (voters learners : OrdSet NodeId)
  | joint (old new learners : OrdSet NodeId)
  deriving DecidableEq

namespace Configuration

/-- `Configuration::simple`: the given voters, no learners. -/
def ofVoters (voters : List NodeId) : Configuration := .simple (OrdSet.ofList voters) OrdSet.empty

/-- All voters in iteration order; a joint configuration lists the old set, then
the new nodes that are not in it. -/
def voters : Configuration → List NodeId
  | simple voters _ => voters.toList
  | joint old new _ => old.toList ++ new.toList.filter (fun id => !old.contains id)

def isVoter : Configuration → NodeId → Bool
  | simple voters _, id => voters.contains id
  | joint old new _, id => old.contains id || new.contains id

def learners : Configuration → List NodeId
  | simple _ learners => learners.toList
  | joint _ _ learners => learners.toList

def isLearner : Configuration → NodeId → Bool
  | simple _ learners, id => learners.contains id
  | joint _ _ learners, id => learners.contains id

def voterCount : Configuration → ℕ
  | simple voters _ => voters.len
  | joint old new _ => old.len + (new.toList.filter (fun id => !old.contains id)).length

def voterPeers (c : Configuration) (me : NodeId) : List NodeId := c.voters.filter (fun id => id != me)

def allNodes (c : Configuration) : List NodeId := c.voters ++ c.learners

def replicationPeers (c : Configuration) (me : NodeId) : List NodeId :=
  c.allNodes.filter (fun id => id != me)

def isMember (c : Configuration) (id : NodeId) : Bool := c.isVoter id || c.isLearner id

def isJoint : Configuration → Bool
  | simple _ _ => false
  | joint _ _ _ => true

/-- More than half of a voter set satisfies the predicate. -/
def majority (set : OrdSet NodeId) (hasVote : NodeId → Bool) : Bool :=
  decide (set.len / 2 < (set.toList.filter hasVote).length)

def hasQuorum : Configuration → (NodeId → Bool) → Bool
  | simple voters _, hasVote => majority voters hasVote
  | joint old new _, hasVote => majority old hasVote && majority new hasVote

def transitionTarget : Configuration → Option Configuration
  | simple _ _ => none
  | joint _ new learners => some (simple new learners)

/-- Only a joint configuration has a successor, and the successor is simple. -/
theorem transitionTarget_isJoint {cfg target : Configuration}
    (h : cfg.transitionTarget = some target) : cfg.isJoint = true ∧ target.isJoint = false := by
  cases cfg with
  | simple voters learners => cases h
  | joint old new learners =>
    rw [transitionTarget, Option.some.injEq] at h
    rw [← h]
    exact ⟨rfl, rfl⟩

end Configuration

inductive ConfigChangeError where
  | changeInProgress
  | alreadyVoter (id : NodeId)
  | alreadyLearner (id : NodeId)
  | overlap (id : NodeId)
  | promoteRequiresLearner (id : NodeId)
  | learnerNotCaughtUp (id : NodeId) (have_ need : ℕ)
  | notVoter (id : NodeId)
  | notLearner (id : NodeId)
  | wouldBeEmpty
  | noChange
  | notSingleChange (added removed : ℕ)
  | notLeader
  deriving DecidableEq, Repr

/-- A full membership set. Its fields are private in the source and only
`Members::new` fills them, so a learner is never a voter as well. -/
structure Members where
  voters : OrdSet NodeId
  learners : OrdSet NodeId
  disjoint : ∀ id ∈ learners, id ∉ voters

/-- `Members::new`: collect both lists, refusing the first learner that is a voter. -/
def Members.new (voters learners : List NodeId) : Except ConfigChangeError Members :=
  match h : learners.find? (fun id => (OrdSet.ofList voters).contains id) with
  | some id => .error (.overlap id)
  | none => .ok
    { voters := OrdSet.ofList voters
      learners := OrdSet.ofList learners
      disjoint := by
        intro id hid hv
        rw [OrdSet.mem_ofList] at hid
        have hn := List.find?_eq_none.mp h id hid
        exact hn ((OrdSet.contains_iff _ _).mpr hv) }

inductive ConfigChange where
  | addVoter (id : NodeId)
  | removeVoter (id : NodeId)
  | addLearner (id : NodeId)
  | removeLearner (id : NodeId)
  | setMembers (members : Members)

namespace ConfigChange

/-- `SetMembers` against a simple configuration. -/
def validateMembers (members : Members) (voters learners : OrdSet NodeId) (mode : MembershipMode) :
    Except ConfigChangeError Unit :=
  if members.voters = voters ∧ members.learners = learners then .error .noChange
  else
    let added := members.voters.toList.filter (fun id => !voters.contains id)
    let removed := voters.toList.filter (fun id => !members.voters.contains id)
    if mode = .singleServer ∧ 1 < added.length + removed.length then
      .error (.notSingleChange added.length removed.length)
    else if members.voters.isEmpty then .error .wouldBeEmpty
    else match members.voters.toList.find? (fun id => members.learners.contains id) with
      | some id => .error (.alreadyVoter id)
      | none => .ok ()

def validate (change : ConfigChange) (current : Configuration) (mode : MembershipMode) :
    Except ConfigChangeError Unit :=
  match current with
  | .joint _ _ _ => .error .changeInProgress
  | .simple voters learners =>
    match change with
    | addVoter id =>
      if voters.contains id then .error (.alreadyVoter id)
      else if !learners.contains id then .error (.promoteRequiresLearner id)
      else .ok ()
    | removeVoter id =>
      if !voters.contains id then .error (.notVoter id)
      else if voters.len = 1 then .error .wouldBeEmpty
      else .ok ()
    | addLearner id =>
      if voters.contains id then .error (.alreadyVoter id)
      else if learners.contains id then .error (.alreadyLearner id)
      else .ok ()
    | removeLearner id =>
      if !learners.contains id then .error (.notLearner id)
      else .ok ()
    | setMembers members => validateMembers members voters learners mode

/-- The sets a change starts from: those of a simple configuration, or the new
side of a joint one. -/
def baseSets : Configuration → OrdSet NodeId × OrdSet NodeId
  | .simple voters learners => (voters, learners)
  | .joint _ new learners => (new, learners)

def apply (change : ConfigChange) (current : Configuration) (mode : MembershipMode) : Configuration :=
  let voters := (baseSets current).1
  let learners := (baseSets current).2
  match change with
  | addVoter id => .simple (voters.insert id) (learners.remove id)
  | removeVoter id => .simple (voters.remove id) learners
  | addLearner id => .simple voters (learners.insert id)
  | removeLearner id => .simple voters (learners.remove id)
  | setMembers members =>
    if mode = .jointConsensus ∧ voters ≠ members.voters then
      .joint voters members.voters members.learners
    else .simple members.voters members.learners

end ConfigChange
end BasisDB.Raft
