import BasisDB.LoopRuns
import BasisDB.RaftContiguousLog
import BasisDB.RaftRuntime

/-! The loop that applies committed entries: take the first one, apply it, advance to its
index. It applies the committed commands in order, and leaves `last_applied` at the last of
them, which is not the commit index when configurations follow. -/
namespace BasisDB.Raft

/-- The log entry of a committed command. -/
def CommittedEntry.entry (e : CommittedEntry) : Entry :=
  { term := e.term, index := e.index, payload := .command e.command }

namespace RaftNode
open LoopRuns

variable {n : RaftNode} {e : CommittedEntry} {es : List CommittedEntry}

/-- The command at an index of the log, if there is one. -/
def commandAt (n : RaftNode) (idx : ℕ) : Option CommittedEntry :=
  (n.core.log.get idx).bind (fun entry => match entry.payload with
    | .command cmd => some { index := entry.index, term := entry.term, command := cmd }
    | .config _ => none)

theorem committed_eq (n : RaftNode) : n.committed =
    (List.range' (n.core.lastApplied + 1) (n.core.commitIndex - n.core.lastApplied)).filterMap
      n.commandAt := rfl

section Contiguous
variable (hlog : n.core.log.Contiguous)
include hlog

theorem commandAt_iff {idx : ℕ} :
    n.commandAt idx = some e ↔ e.index = idx ∧ n.core.log.get idx = some e.entry := by
  constructor
  · intro h
    obtain ⟨entry, hget, hentry⟩ := Option.bind_eq_some_iff.mp h
    have hindex := (Log.get_index hlog hget).2.2
    cases hp : entry.payload with
    | config c => simp [hp] at hentry
    | command cmd =>
      simp only [hp, Option.some.injEq] at hentry
      subst hentry
      rw [hget, CommittedEntry.entry, ← hp]
      exact ⟨hindex, rfl⟩
  · intro h
    rw [commandAt, h.2]
    rfl

/-- The committed entries are the commands above `last_applied`, up to the commit index. -/
theorem mem_committed : e ∈ n.committed ↔ n.core.lastApplied < e.index ∧
    e.index ≤ n.core.commitIndex ∧ n.core.log.get e.index = some e.entry := by
  rw [committed_eq, List.mem_filterMap]
  constructor
  · intro h
    obtain ⟨idx, hmem, hidx⟩ := h
    obtain ⟨rfl, hget⟩ := (commandAt_iff hlog).mp hidx
    have hrange := List.mem_range'_1.mp hmem
    exact ⟨by omega, by omega, hget⟩
  · intro h
    refine ⟨e.index, ?_, (commandAt_iff hlog).mpr ⟨rfl, h.2.2⟩⟩
    apply List.mem_range'_1.mpr
    omega

theorem committed_ordered : n.committed.Pairwise (fun a b => a.index < b.index) := by
  rw [committed_eq]
  apply List.Pairwise.filterMap n.commandAt _ List.pairwise_lt_range'
  intro i j hij a ha b hb
  rw [((commandAt_iff hlog).mp ha).1, ((commandAt_iff hlog).mp hb).1]
  exact hij

/-- Advancing to the first committed entry takes exactly that entry off. -/
theorem committed_advance (h : n.committed = e :: es) :
    (n.advance e.index).committed = es := by
  rw [committed_eq] at h
  obtain ⟨skipped, idx, rest, hrange, -, hidx, hes⟩ := List.filterMap_eq_cons_iff.mp h
  obtain ⟨k, hk, -, hcons⟩ := List.range'_eq_append_iff.mp hrange
  obtain ⟨hstart, hpos, hrest⟩ := List.range'_eq_cons_iff.mp hcons.symm
  have hindex := ((commandAt_iff hlog).mp hidx).1
  have hleft : n.core.commitIndex - e.index =
      n.core.commitIndex - n.core.lastApplied - k - 1 := by omega
  rw [← hes, hrest, committed_eq, hindex]
  show List.filterMap n.commandAt
    (List.range' (idx + 1) (n.core.commitIndex - idx)) = _
  rw [← hindex, hleft]

end Contiguous

/-- One turn of the loop, with the entries applied so far. -/
def drainTurn (s : RaftNode × List CommittedEntry) :
    (RaftNode × List CommittedEntry) ⊕ (RaftNode × List CommittedEntry) :=
  match s.1.committed with
  | [] => .inr s
  | entry :: _ => .inl (s.1.advance entry.index, s.2 ++ [entry])

/-- Where `last_applied` stands after these entries. -/
def appliedTo (n : RaftNode) (es : List CommittedEntry) : ℕ :=
  (es.getLast?.map CommittedEntry.index).getD n.core.lastApplied

theorem appliedTo_cons (n : RaftNode) (e : CommittedEntry) (es : List CommittedEntry) :
    n.appliedTo (e :: es) = (n.advance e.index).appliedTo es := by
  rcases List.eq_nil_or_concat' es with rfl | ⟨init, last, rfl⟩
  · rfl
  · have hcons : e :: (init ++ [last]) = (e :: init) ++ [last] := rfl
    rw [appliedTo, appliedTo, hcons, List.getLast?_concat, List.getLast?_concat]
    rfl

/-- The loop ends, has applied what was committed, and stands at the last applied entry. -/
theorem drain_returns (hlog : n.core.log.Contiguous) (done : List CommittedEntry) :
    Returns drainTurn (n, done) (n.advance (n.appliedTo n.committed), done ++ n.committed) := by
  -- the loop follows the list of committed entries
  induction hes : n.committed generalizing n done with
  | nil =>
    apply Returns.stop
    rw [drainTurn]
    simp only [hes, List.append_nil]
    rfl
  | cons e es ih =>
    have hturn : drainTurn (n, done) = .inl (n.advance e.index, done ++ [e]) := by
      rw [drainTurn]
      simp only [hes]
    have hrest := ih (n := n.advance e.index) hlog (done ++ [e]) (committed_advance hlog hes)
    rw [← appliedTo_cons, List.append_assoc] at hrest
    exact Returns.again hturn hrest

theorem appliedTo_cases (n : RaftNode) (es : List CommittedEntry) :
    n.appliedTo es = n.core.lastApplied ∨ ∃ e ∈ es, n.appliedTo es = e.index := by
  rcases List.eq_nil_or_concat' es with rfl | ⟨init, last, rfl⟩
  · exact Or.inl rfl
  · right
    exact ⟨last, by simp, by simp [appliedTo]⟩

/-- The last committed entry is the furthest. -/
theorem le_appliedTo (hlog : n.core.log.Contiguous) (h : e ∈ n.committed) :
    e.index ≤ n.appliedTo n.committed := by
  have hordered := committed_ordered hlog
  generalize n.committed = es at h hordered
  rcases List.eq_nil_or_concat' es with rfl | ⟨init, last, rfl⟩
  · simp at h
  · have hlast : n.appliedTo (init ++ [last]) = last.index := by simp [appliedTo]
    rw [hlast]
    rcases List.mem_append.mp h with hinit | hlast
    · apply Nat.le_of_lt
      exact (List.pairwise_append.mp hordered).2.2 e hinit last (by simp)
    · rw [List.mem_singleton.mp hlast]

theorem lastApplied_le_appliedTo (hlog : n.core.log.Contiguous) :
    n.core.lastApplied ≤ n.appliedTo n.committed := by
  rcases n.appliedTo_cases n.committed with hstays | ⟨e, he, hlast⟩
  · exact hstays.ge
  · have hlow := ((mem_committed hlog).mp he).1
    omega

/-- What draining is for: the committed commands are applied once each and in order, and a
leader can then serve every confirmed read. -/
structure Drains (n n' : RaftNode) (applied : List CommittedEntry) : Prop where
  ordered : applied.Pairwise (fun a b => a.index < b.index)
  mem_iff : ∀ e, e ∈ applied ↔ n.core.lastApplied < e.index ∧ e.index ≤ n.core.commitIndex ∧
    n.core.log.get e.index = some e.entry
  ready : ∀ l, n.role = .leader l → ∀ r, r ≤ l.confirmedReadIndex → r ≤ n.core.commitIndex →
    n'.readIndexReady r = true

/-- Up to where reads are confirmed, everything is applied already, or some command that is
committed stands at that index or behind it. -/
def CommandCoversReads (n : RaftNode) : Prop :=
  ∀ l, n.role = .leader l →
    min l.confirmedReadIndex n.core.commitIndex ≤ n.core.lastApplied ∨
    ∃ i entry, min l.confirmedReadIndex n.core.commitIndex ≤ i ∧ i ≤ n.core.commitIndex ∧
      n.core.log.get i = some entry ∧ entry.payload.isConfig = false

theorem readIndexReady_advance {l : Leader} (hl : n.role = .leader l) (i r : ℕ) :
    (n.advance i).readIndexReady r = true ↔ r ≤ l.confirmedReadIndex ∧ r ≤ i := by
  have hrole : (n.advance i).role = .leader l := hl
  simp only [readIndexReady, hrole, Leader.readIndexReady, Bool.and_eq_true, decide_eq_true_eq]
  rfl

/-- The loop always ends, with the committed commands applied in order; the confirmed reads
become ready exactly when no run of configurations separates them from the last command. -/
theorem drain_serves_reads_iff (n : RaftNode) (hlog : n.core.log.Contiguous) :
    (∃ n' applied, Returns drainTurn (n, []) (n', applied) ∧ n.Drains n' applied) ↔
      n.CommandCoversReads := by
  have hreturns : Returns drainTurn (n, []) (n.advance (n.appliedTo n.committed), n.committed) :=
    drain_returns hlog []
  constructor
  · intro h l hl
    obtain ⟨n', applied, hreturns', hdrains⟩ := h
    obtain ⟨rfl, rfl⟩ := Prod.mk.inj (hreturns'.unique hreturns)
    have hready := hdrains.ready l hl (min l.confirmedReadIndex n.core.commitIndex)
      (min_le_left _ _) (min_le_right _ _)
    have hle := ((readIndexReady_advance hl _ _).mp hready).2
    rcases n.appliedTo_cases n.committed with hstays | ⟨e, he, hlast⟩
    · left
      omega
    · right
      obtain ⟨-, hcommit, hget⟩ := (mem_committed hlog).mp he
      exact ⟨e.index, e.entry, by omega, hcommit, hget, rfl⟩
  · intro h
    refine ⟨_, _, hreturns, committed_ordered hlog, fun e => mem_committed hlog, ?_⟩
    intro l hl r hconfirmed hcommit
    apply (readIndexReady_advance hl _ _).mpr
    refine ⟨hconfirmed, ?_⟩
    have hr : r ≤ min l.confirmedReadIndex n.core.commitIndex := le_min hconfirmed hcommit
    have hlow := lastApplied_le_appliedTo hlog
    rcases h l hl with happlied | ⟨i, entry, hcover, hi, hget, hcommand⟩
    · omega
    · by_cases hold : i ≤ n.core.lastApplied
      · omega
      · -- the covering command is applied by the loop
        cases hp : entry.payload with
        | config c => simp [hp, EntryPayload.isConfig] at hcommand
        | command cmd =>
          let e : CommittedEntry := { index := i, term := entry.term, command := cmd }
          have hentry : e.entry = entry := by
            have hindex := (Log.get_index hlog hget).2.2
            show ({ term := entry.term, index := i, payload := .command cmd } : Entry) = entry
            rw [← hp, ← hindex]
          have hmem : e ∈ n.committed := by
            apply (mem_committed hlog).mpr
            rw [hentry]
            exact ⟨not_le.mp hold, hi, hget⟩
          have hreach : i ≤ n.appliedTo n.committed := le_appliedTo hlog hmem
          omega

/-- Node 0 leads alone; a command and the given further entry are committed, reads are
confirmed up to there, and nothing is applied. -/
def confirmedUpTo (payload : EntryPayload) : RaftNode :=
  let core : Core :=
    { Core.restore (Config.new 0)
        { term := 1
          votedFor := some 0
          log := { Log.empty with
            entries := [⟨1, 1, .command ⟨[1]⟩⟩, { term := 1, index := 2, payload := payload }] }
          bootstrapConfig := .ofVoters [0] } with
      commitIndex := 2 }
  { core := core, role := .leader { (Leader.new core).1 with confirmedReadIndex := 2 } }

theorem confirmedUpTo_contiguous (payload : EntryPayload) :
    (confirmedUpTo payload).core.log.Contiguous := by
  intro k entry hget
  rcases k with _ | _ | k
  · cases hget
    rfl
  · cases hget
    rfl
  · cases hget

/-- The second entry is a configuration: `last_applied` ends at 1, and the read at the commit
index 2 never becomes ready. -/
theorem drained_read_not_ready :
    let n := confirmedUpTo (.config (.ofVoters [0]))
    n.core.log.Contiguous ∧ n.core.commitIndex = 2 ∧ n.core.log.lastIndex = 2 ∧
    Returns drainTurn (n, []) (n.advance 1, [⟨1, 1, ⟨[1]⟩⟩]) ∧
    (n.advance 1).readIndexReady 2 = false ∧
    ¬ ∃ n' applied, Returns drainTurn (n, []) (n', applied) ∧ n.Drains n' applied := by
  have hreturns := drain_returns (confirmedUpTo_contiguous (.config (.ofVoters [0]))) []
  have happlied : (confirmedUpTo (.config (.ofVoters [0]))).committed = [⟨1, 1, ⟨[1]⟩⟩] := by
    decide +kernel
  rw [happlied] at hreturns
  refine ⟨confirmedUpTo_contiguous _, rfl, rfl, hreturns, by decide +kernel, ?_⟩
  intro h
  obtain ⟨n', applied, hreturns', hdrains⟩ := h
  obtain ⟨rfl, rfl⟩ := Prod.mk.inj (hreturns'.unique hreturns)
  have hready := hdrains.ready _ rfl 2 le_rfl le_rfl
  revert hready
  decide +kernel

theorem drain_serves_reads_commandLast :
    let n := confirmedUpTo (.command ⟨[2]⟩)
    ∃ n' applied, Returns drainTurn (n, []) (n', applied) ∧ n.Drains n' applied := by
  apply (drain_serves_reads_iff _ (confirmedUpTo_contiguous _)).mpr
  intro l hl
  exact Or.inr ⟨2, _, min_le_right _ _, le_rfl, rfl, rfl⟩

end RaftNode
end BasisDB.Raft

namespace BasisDB.Runtime.RaftRuntime
open BasisDB.Raft BasisDB.Kv

/-- The effect of one committed command on the KV state; a command that does not decode has
none. -/
def applyTo (codec : Codec) (state : KvState) (entry : CommittedEntry) : KvState :=
  match codec.decode entry.command.bytes with
  | none => state
  | some command => (state.apply command).1

theorem applyEntry_frame (codec : Codec) (r : RaftRuntime) (entry : CommittedEntry) :
    (r.applyEntry codec entry).1.node = r.node.advance entry.index ∧
      (r.applyEntry codec entry).1.state = applyTo codec r.state entry := by
  unfold applyEntry applyCommand applyTo completeWaiter
  cases codec.decode entry.command.bytes with
  | none =>
    dsimp only
    cases r.waiters.get entry.index <;> exact ⟨rfl, rfl⟩
  | some command =>
    dsimp only
    cases r.waiters.get entry.index <;> exact ⟨rfl, rfl⟩

/-- With enough turns `apply_committed` is the loop above, and the KV state has seen the
committed commands in order. -/
theorem applyCommitted_drains (codec : Codec) {turns : ℕ} {r : RaftRuntime}
    (hlog : r.node.core.log.Contiguous) (hturns : r.node.committed.length ≤ turns) :
    (r.applyCommitted codec turns).1.node =
        r.node.advance (r.node.appliedTo r.node.committed) ∧
      (r.applyCommitted codec turns).1.state =
        r.node.committed.foldl (applyTo codec) r.state := by
  induction hes : r.node.committed generalizing r turns with
  | nil =>
    cases turns with
    | zero => exact ⟨rfl, rfl⟩
    | succ turns =>
      rw [applyCommitted]
      simp only [hes]
      exact ⟨rfl, rfl⟩
  | cons e es ih =>
    obtain ⟨turns, rfl⟩ : ∃ k, turns = k + 1 := by
      rw [hes, List.length_cons] at hturns
      exact ⟨turns - 1, by omega⟩
    obtain ⟨hnode, hstate⟩ := applyEntry_frame codec r e
    have hnext := RaftNode.committed_advance hlog hes
    have hlog' : (r.applyEntry codec e).1.node.core.log.Contiguous := by rw [hnode]; exact hlog
    have hes' : (r.applyEntry codec e).1.node.committed = es := by rw [hnode, hnext]
    have hturns' : (r.applyEntry codec e).1.node.committed.length ≤ turns := by
      rw [hes, List.length_cons] at hturns
      rw [hes']
      omega
    obtain ⟨hnode', hstate'⟩ := ih hlog' hturns' hes'
    rw [hnode] at hnode'
    rw [hstate] at hstate'
    rw [applyCommitted]
    simp only [hes]
    rw [hnode', hstate', RaftNode.appliedTo_cons]
    exact ⟨rfl, rfl⟩

/-- The turns that `handle_effects` runs are enough. -/
theorem committed_length_le_turns (r : RaftRuntime) : r.node.committed.length ≤ r.turns := by
  rw [RaftNode.committed_eq, turns]
  apply (List.length_filterMap_le _ _).trans
  rw [List.length_range']

/-- What `handle_effects` runs of `apply_committed` is the whole loop: it ends where the loop
returns, with every committed command applied to the KV state in order. -/
theorem applyCommitted_turns (codec : Codec) (r : RaftRuntime)
    (hlog : r.node.core.log.Contiguous) :
    LoopRuns.Returns RaftNode.drainTurn (r.node, [])
        ((r.applyCommitted codec r.turns).1.node, r.node.committed) ∧
      (r.applyCommitted codec r.turns).1.state =
        r.node.committed.foldl (applyTo codec) r.state := by
  obtain ⟨hnode, hstate⟩ := applyCommitted_drains codec hlog (committed_length_le_turns r)
  refine ⟨?_, hstate⟩
  rw [hnode]
  exact RaftNode.drain_returns hlog []

end BasisDB.Runtime.RaftRuntime
