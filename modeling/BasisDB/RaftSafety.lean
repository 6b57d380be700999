import BasisDB.RaftRuns

/-! State machine safety and the soundness of match indices. -/
namespace BasisDB.Raft
open ReplicatedLog

variable {boot : Configuration} {mode : MembershipMode} {reconfig : Prop}
  {h h' : History NodeId Entry} {w w' : World} {n p : NodeId}

/-- What two nodes have committed agrees, also at different moments. -/
theorem Kept.committed_take (hk : Kept boot mode reconfig w h) (hk' : Kept boot mode reconfig w' h')
    (hle : History.Le h h') {i : ℕ} (hn : i ≤ (w.views n).commitIndex)
    (hp : i ≤ (w'.views p).commitIndex) :
    (w.views n).log.entries.take i = (w'.views p).log.entries.take i := by
  rcases Nat.eq_zero_or_pos i with rfl | hi
  · simp
  · have h1 := ((hk.acked.nodes n).secured.mono hk.sim.inv hle).le hn
    have h2 := (hk'.acked.nodes p).secured.le hp
    obtain ⟨t, j, m, hm, -, hj, heq⟩ := h1.2 hi
    obtain ⟨t', j', m', hm', -, hj', heq'⟩ := h2.2 hi
    rw [heq, heq']
    exact hk'.complete.commits_agree hk'.sim.inv hm hm' i hj hj'

/-- An acknowledged index is shared as long as the follower stays in the term. -/
theorem Kept.matched_take (hk : Kept boot mode reconfig w h) {l : LeaderView}
    (hr : (w.views n).role = .leader l) (hp : p ≠ n)
    (hterm : (w.views p).term = (w.views n).term) :
    l.matched p ≤ (w.views n).log.entries.length ∧
      (w.views n).log.entries.take (l.matched p) <+: (w.views p).log.entries := by
  rcases Nat.eq_zero_or_pos (l.matched p) with h0 | hpos
  · rw [h0]
    exact ⟨Nat.zero_le _, by simp⟩
  · have hn := hk.sim.nodes n
    have hag := (hk.acked.nodes n).matched l hr p hp _ hpos le_rfl
    have hlog := hk.sim.inv.leader_log _ _ (hn.leader l hr) hn.term
    rw [hn.log] at hlog
    rw [hlog, ← (hk.sim.nodes p).log]
    refine ⟨(hk.sim.inv.agreed_le _ _ _ hag).2, ?_⟩
    rcases hk.sim.inv.agreed_log _ _ _ hag with hpre | ⟨u, hu, hup, -⟩
    · exact hpre
    · rw [(hk.sim.nodes p).term, hterm] at hup
      omega

/-- The match index that a leader keeps for `p`. -/
def RaftNode.matchIndex (node : RaftNode) (p : NodeId) : Option ℕ :=
  match node.role with
  | .leader l => some (l.matchOf p)
  | _ => none

theorem RaftNode.leader_of_matchIndex {node : RaftNode} {m : ℕ} (h : node.matchIndex p = some m) :
    ∃ v, node.view.role = .leader v ∧ v.matched p = m := by
  cases hr : node.role with
  | leader l =>
    simp only [matchIndex, hr, Option.some.injEq] at h
    exact ⟨l.view, by simp [RaftNode.view, Core.view, hr, RoleState.view], h⟩
  | follower f | preCandidate f | candidate f => simp [matchIndex, hr] at h

theorem Log.Plain.get_of_take {log log' : Log} (h : log.Plain) (h' : log'.Plain) {i : ℕ}
    (hi : 0 < i) (hlen : i ≤ log.entries.length) (heq : log.entries.take i = log'.entries.take i) :
    ∃ e, log.get i = some e ∧ log'.get i = some e := by
  obtain ⟨j, rfl⟩ : ∃ j, i = j + 1 := ⟨i - 1, by omega⟩
  have hj : j < log.entries.length := by omega
  refine ⟨log.entries[j], ?_, ?_⟩
  · rw [h.get_succ, List.getElem?_eq_getElem hj]
  · have := congrArg (fun l => l[j]?) heq
    simp only [List.getElem?_take_of_lt (Nat.lt_succ_self j)] at this
    rw [h'.get_succ, ← this, List.getElem?_eq_getElem hj]

namespace Cluster

/-- State machine safety: in a truthful run two nodes that have committed an index,
at whatever moments, hold one and the same entry there. -/
theorem state_machine_safety (configs : NodeId → Config) (voters : List NodeId)
    (acts : List Action) (hfix : FixedMembership acts)
    (htrue : (init configs voters).Truthful acts) (j k : ℕ) (a b : NodeId) (i : ℕ) (hi : 0 < i)
    (ha : i ≤ (((init configs voters).moment acts j).nodes a).commitIndex)
    (hb : i ≤ (((init configs voters).moment acts k).nodes b).commitIndex) :
    ∃ e, (((init configs voters).moment acts j).nodes a).log.get i = some e ∧
      (((init configs voters).moment acts k).nodes b).log.get i = some e := by
  obtain ⟨hs, ht⟩ := tracked_run configs voters (fixed_respects configs voters hfix htrue) (max j k)
  have hj := ht.kept j (le_max_left _ _)
  have hk := ht.kept k (le_max_right _ _)
  refine (hj.formed.views a).plain.get_of_take (hk.formed.views b).plain hi
    (ha.trans (hj.acked.nodes a).secured.1) ?_
  rcases le_total j k with hjk | hkj
  · exact hj.committed_take hk (ht.le j k hjk (le_max_right _ _)) ha hb
  · exact (hk.committed_take hj (ht.le k j hkj (le_max_left _ _)) hb ha).symm

theorem state_machine_safety_pairRun :
    ∃ e, (((init quickConfig [0, 1]).moment pairRun 6).nodes 0).log.get 1 = some e ∧
      (((init quickConfig [0, 1]).moment pairRun 8).nodes 1).log.get 1 = some e :=
  state_machine_safety quickConfig [0, 1] pairRun (by decide) (by decide +kernel) 6 8 0 1 1
    (by decide) (by decide +kernel) (by decide +kernel)

/-- Node 0 leads term 1 and appends a command that reaches nobody. Node 1 leads term
2 with an empty log; its heartbeat, delivered to node 0 a second time now that node
0 follows, is answered with node 0's last index. -/
def staleReply : List Action :=
  [.tick 0, .deliver 0, .deliver 2, .propose 0 ⟨[7]⟩, .tick 1, .deliver 8, .deliver 9,
    .deliver 10, .deliver 10, .deliver 12]

/-- Node 1 then commits its first command on the strength of that answer, before node
0 is elected again and commits its own first command. -/
def staleCommit : List Action :=
  staleReply ++ [.propose 1 ⟨[8]⟩, .tick 0, .deliver 16, .deliver 17, .propose 0 ⟨[9]⟩,
    .deliver 19, .deliver 22, .deliver 23, .deliver 24]

/-- Two nodes commit different entries at index 1. -/
theorem staleCommit_diverges :
    FixedMembership staleCommit ∧
      1 ≤ (((init quickConfig [0, 1, 2]).moment staleCommit 11).nodes 1).commitIndex ∧
      1 ≤ (((init quickConfig [0, 1, 2]).moment staleCommit 19).nodes 0).commitIndex ∧
      (((init quickConfig [0, 1, 2]).moment staleCommit 11).nodes 1).log.get 1 =
        some ⟨2, 1, .command ⟨[8]⟩⟩ ∧
      (((init quickConfig [0, 1, 2]).moment staleCommit 19).nodes 0).log.get 1 =
        some ⟨1, 1, .command ⟨[7]⟩⟩ := by
  decide +kernel

/-- Match indices are sound: in a truthful run what a leader counts as matched on a
node of its term is really the same on both. -/
theorem match_index_sound (configs : NodeId → Config) (voters : List NodeId) (acts : List Action)
    (hfix : FixedMembership acts) (htrue : (init configs voters).Truthful acts) (l p : NodeId)
    (m : ℕ) (hm : (((init configs voters).run acts).nodes l).matchIndex p = some m) (hp : p ≠ l)
    (hterm : (((init configs voters).run acts).nodes p).term =
      (((init configs voters).run acts).nodes l).term) :
    m ≤ (((init configs voters).run acts).nodes l).log.lastIndex ∧
      ∀ i, 0 < i → i ≤ m →
        ∃ e, (((init configs voters).run acts).nodes l).log.get i = some e ∧
          (((init configs voters).run acts).nodes p).log.get i = some e := by
  obtain ⟨hs, ht⟩ := tracked_run configs voters (fixed_respects configs voters hfix htrue)
    acts.length
  have hk := ht.kept acts.length le_rfl
  rw [moment, List.take_length] at hk
  obtain ⟨v, hrole, rfl⟩ := RaftNode.leader_of_matchIndex hm
  obtain ⟨hlen, hpre⟩ := hk.matched_take hrole hp hterm
  have hplain : (((init configs voters).run acts).nodes l).log.Plain := (hk.formed.views l).plain
  rw [hplain.lastIndex]
  refine ⟨hlen, fun i hi him => ?_⟩
  refine hplain.get_of_take (hk.formed.views p).plain hi (him.trans hlen) ?_
  rw [take_isPrefix_of_isPrefix hpre (by rw [List.length_take]; exact le_min him (him.trans hlen)),
    List.take_take, min_eq_left him]
  rfl

theorem match_index_sound_pairRun :
    (((init quickConfig [0, 1]).run pairRun).nodes 0).matchIndex 1 = some 1 ∧
      ∃ e, (((init quickConfig [0, 1]).run pairRun).nodes 0).log.get 1 = some e ∧
        (((init quickConfig [0, 1]).run pairRun).nodes 1).log.get 1 = some e :=
  ⟨by decide +kernel, (match_index_sound quickConfig [0, 1] pairRun (by decide) (by decide +kernel)
    0 1 1 (by decide +kernel) (by decide) (by decide +kernel)).2 1 Nat.one_pos le_rfl⟩

/-- The leader of term 2 has an empty log, and node 0 of that term as matched up to 1. -/
theorem staleReply_matches_nothing :
    FixedMembership staleReply ∧
      (((init quickConfig [0, 1, 2]).run staleReply).nodes 0).term =
        (((init quickConfig [0, 1, 2]).run staleReply).nodes 1).term ∧
      (((init quickConfig [0, 1, 2]).run staleReply).nodes 1).matchIndex 0 = some 1 ∧
      (((init quickConfig [0, 1, 2]).run staleReply).nodes 1).log.lastIndex = 0 := by
  decide +kernel

end Cluster
end BasisDB.Raft
