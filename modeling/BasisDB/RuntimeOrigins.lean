import BasisDB.RaftAddressed
import BasisDB.RuntimeTruthful

/-! Where entries come from: every command in any log, on any disk and in any message is one that
an accepted proposal appended, at that index and in that term, in any run whatsoever. -/
namespace BasisDB.Raft

/-- All entries that the message carries have property `P`. -/
def Message.Brings (P : Entry → Prop) (m : Message) : Prop :=
  ∀ req, m.payload = .appendRequest req → ∀ e ∈ req.entries, P e

section Spread
variable {g : Guards} {P : Entry → Prop} {me : NodeId}

/-- A message that a node sends carries entries of its log only. -/
theorem Micro.brings {v v' : View} {net net' : Set Message} (h : Micro g me v net v' net')
    (hv : ∀ e ∈ v.log.entries, P e) (hnet : ∀ m ∈ net, m.Brings P) : ∀ m ∈ net', m.Brings P := by
  cases h with
  | grant m req | absorb m req =>
    rintro m' (rfl | hm')
    · exact fun req h => nomatch h
    · exact hnet m' hm'
  | emit m hm =>
    rintro m' (rfl | hm')
    · intro req hreq e he
      obtain ⟨-, hm⟩ := hm
      rw [hreq] at hm
      obtain ⟨-, -, -, -, stop, hentries⟩ := hm
      rw [hentries] at he
      exact hv e (v.log.slice_subset _ _ he)
    · exact hnet m' hm'
  | _ => exact hnet

theorem Micros.spreads (hg : g.Admit P) {a b : View × Set Message} (h : Micros g me a b)
    (hv : ∀ e ∈ a.1.log.entries, P e) (hnet : ∀ m ∈ a.2, m.Brings P) :
    (∀ e ∈ b.1.log.entries, P e) ∧ ∀ m ∈ b.2, m.Brings P := by
  induction h with
  | refl => exact ⟨hv, hnet⟩
  | tail _ hstep ih => exact ⟨hstep.entries hg ih.1, hstep.brings ih.1 ih.2⟩

end Spread
end BasisDB.Raft

namespace BasisDB.Runtime
open BasisDB.Raft BasisDB.Kv

/-- If the entry is a command, some call appended it. -/
def FromCall (calls : List ProposeCall) (e : Entry) : Prop :=
  ∀ command, e.payload = .command command → ∃ call ∈ calls, call.index = e.index ∧
    call.term = e.term ∧ call.command = command.bytes

theorem FromCall.mono {calls calls' : List ProposeCall} {e : Entry} (h : FromCall calls e)
    (hle : calls <+: calls') : FromCall calls' e := by
  intro command hcommand
  obtain ⟨call, hmem, hrest⟩ := h command hcommand
  exact ⟨call, hle.subset hmem, hrest⟩

theorem entryGuards_fromCall (calls : List ProposeCall) :
    (entryGuards (FromCall calls)).Admit (FromCall calls) where
  config _ _ _ := fun _ h => EntryPayload.noConfusion h
  command _ h := h
  absorb _ _ req h := h req

/-- A message of good form that carries only entries of calls. -/
structure Attributes (calls : List ProposeCall) (m : Message) : Prop where
  formed : m.Formed
  brings : m.Brings (FromCall calls)

theorem Attributes.mono {calls calls' : List ProposeCall} {m : Message}
    (h : Attributes calls m) (hle : calls <+: calls') : Attributes calls' m :=
  ⟨h.formed, fun req hreq e he => (h.brings req hreq e he).mono hle⟩

namespace RaftRuntime

/-- A runtime whose log and store are of good form and hold only entries of calls. -/
structure Attributed (n : NodeId) (boot : Configuration) (calls : List ProposeCall)
    (r : RaftRuntime) : Prop where
  nodeId : r.config.nodeId = n
  consensus : r.config.consensus.id = n
  id : r.node.core.id = n
  formed : r.node.view.Formed boot
  store_plain : r.store.log.Plain
  store_boot : r.store.bootstrapConfig = boot
  entries : ∀ e ∈ r.node.log.entries, FromCall calls e
  stored : ∀ e ∈ r.store.log.entries, FromCall calls e

variable {n : NodeId} {boot : Configuration} {calls calls' : List ProposeCall} {r r' : RaftRuntime}
  {net : Set Message} {task : Task} {next : RaftNode × Effects} {out : Outcome}

theorem Attributed.mono (h : r.Attributed n boot calls) (hle : calls <+: calls') :
    r.Attributed n boot calls' :=
  { h with
    entries := fun e he => (h.entries e he).mono hle
    stored := fun e he => (h.stored e he).mono hle }

/-- What only changes waiters, states and counters. -/
theorem Attributed.same (h : r.Attributed n boot calls) (hconfig : r'.config = r.config)
    (hnode : r'.node = r.node) (hstore : r'.store = r.store) : r'.Attributed n boot calls where
  nodeId := hconfig ▸ h.nodeId
  consensus := hconfig ▸ h.consensus
  id := hnode ▸ h.id
  formed := hnode ▸ h.formed
  store_plain := hstore ▸ h.store_plain
  store_boot := hstore ▸ h.store_boot
  entries := hnode ▸ h.entries
  stored := hstore ▸ h.stored

/-- A step of the node whose new commands are those of calls. -/
theorem Attributed.step (h : r.Attributed n boot calls) (hout : out.Of r task next)
    (hle : calls <+: calls') (hnet : ∀ m ∈ net, Attributes calls m)
    (hc : Carries (entryGuards (FromCall calls')) net r.node.core r.node.role.view next.1.core
      next.1.role.view next.2) :
    out.runtime.Attributed n boot calls' ∧ ∀ m ∈ out.messages, Attributes calls' m := by
  obtain ⟨hformed, hsent⟩ := hc.steps.formed h.formed (fun m hm => (hnet m hm).formed)
  obtain ⟨hentries, hbrings⟩ := hc.steps.spreads (entryGuards_fromCall calls')
    (fun e he => (h.entries e he).mono hle) (fun m hm => ((hnet m hm).mono hle).brings)
  have hid : next.1.core.id = n := (congrArg Config.id hc.config).trans h.id
  refine ⟨⟨?_, ?_, ?_, ?_, ?_, ?_, ?_, ?_⟩, fun m hm => ?_⟩
  · rw [hout.config, h.nodeId]
  · rw [hout.config, h.consensus]
  · rw [hout.node]
    exact hid
  · rw [hout.node]
    exact hformed
  · rw [hout.store]
    split_ifs
    · exact hformed.plain
    · exact h.store_plain
  · rw [hout.store]
    split_ifs
    · exact hformed.boot_eq
    · exact h.store_boot
  · rw [hout.node]
    exact hentries
  · rw [hout.store]
    split_ifs
    · exact hentries
    · exact fun e he => (h.stored e he).mono hle
  · have hmem : m ∈ next.2.sent net := Or.inr (hout.messages hm)
    exact ⟨hsent m hmem, hbrings m hmem⟩

theorem Attributed.ready (h : r.Attributed n boot calls) (hnet : ∀ m ∈ net, Attributes calls m) :
    r.node.Ready boot net := ⟨h.formed, fun m hm => (hnet m hm).formed⟩

/-- A tick, or a message from the network. -/
theorem Attributed.event (h : r.Attributed n boot calls) (hnet : ∀ m ∈ net, Attributes calls m)
    {event : Event} (hevent : event = .tick ∨ ∃ message ∈ net, event = .message message ∧
      message.receiver = n) :
    Carries (entryGuards (FromCall calls)) net r.node.core r.node.role.view
      (r.node.stepEvent event).1.core (r.node.stepEvent event).1.role.view
      (r.node.stepEvent event).2 := by
  rcases hevent with rfl | ⟨message, hmem, rfl, hreceiver⟩
  · exact RaftNode.tick_carries (h.ready hnet)
  · refine RaftNode.step_carries (h.ready hnet) ?_ ?_ ?_
    · exact ⟨fun _ => hmem, (hnet message hmem).formed, hreceiver.trans h.id.symm, h.formed.plain⟩
    · exact fun _ _ _ _ _ _ => (hnet message hmem).brings
    · exact fun _ _ _ _ _ => entryGuards_crossable _ _ _

end RaftRuntime

namespace RuntimeCluster
variable {codec : Codec} {s s' : RuntimeCluster} {boot : NodeId → Configuration}
  {a : RuntimeAction}

structure Attributed (boot : NodeId → Configuration) (s : RuntimeCluster) : Prop where
  runtimes : ∀ n, (s.runtimes n).Attributed n (boot n) s.calls
  net : ∀ m ∈ s.net, Attributes s.calls m

theorem init_attributed (configs : NodeId → NodeConfig) :
    (init configs).Attributed (fun n => Configuration.ofVoters (configs n).peers.toList) where
  runtimes _ :=
    { nodeId := rfl
      consensus := rfl
      id := rfl
      formed := ⟨Log.Plain.empty, rfl, fun h => absurd rfl h⟩
      store_plain := Log.Plain.empty
      store_boot := rfl
      entries := fun _ h => absurd h List.not_mem_nil
      stored := fun _ h => absurd h List.not_mem_nil }
  net _ h := absurd h List.not_mem_nil

theorem Attributed.record (hs : s.Attributed boot) {n : NodeId} {out : Outcome}
    (hout : out.runtime.Attributed n (boot n) (s.calls ++ out.appended.toList) ∧
      ∀ m ∈ out.messages, Attributes (s.calls ++ out.appended.toList) m) :
    (s.record n out).Attributed boot := by
  have hle : s.calls <+: s.calls ++ out.appended.toList := List.prefix_append _ _
  refine ⟨fun p => ?_, fun m hm => ?_⟩
  · rcases eq_or_ne p n with rfl | hp
    · simpa only [RuntimeCluster.record, Function.update_self] using hout.1
    · simpa only [RuntimeCluster.record, Function.update_of_ne hp] using (hs.runtimes p).mono hle
  · rcases List.mem_append.mp hm with hm | hm
    · exact (hs.net m hm).mono hle
    · exact hout.2 m hm

theorem Attributed.setRuntime (hs : s.Attributed boot) {n : NodeId} {r : RaftRuntime}
    (hr : r.Attributed n (boot n) s.calls) : (s.setRuntime n r).Attributed boot := by
  refine ⟨fun p => ?_, hs.net⟩
  rcases eq_or_ne p n with rfl | hp
  · simpa only [RuntimeCluster.setRuntime, Function.update_self] using hr
  · simpa only [RuntimeCluster.setRuntime, Function.update_of_ne hp] using hs.runtimes p

theorem Attributed.step (hs : s.Attributed boot) {low : Cluster → List Action}
    (h : RuntimeStep codec s a s' low) : s'.Attributed boot := by
  have hnet : ∀ m ∈ {m | m ∈ s.net}, Attributes s.calls m := hs.net
  cases h with
  | nothing => exact hs
  | refused n id error =>
    refine hs.record ⟨?_, fun m hm => absurd hm List.not_mem_nil⟩
    rw [Option.toList_none, List.append_nil]
    exact (hs.runtimes n).same rfl rfl rfl
  | event n task event act hhealthy hsettled hevent hact hstep =>
    refine hs.record ?_
    rw [RaftRuntime.drive_appended, Option.toList_none, List.append_nil]
    refine (hs.runtimes n).step (RaftRuntime.drive_of codec hhealthy _) List.prefix_rfl hnet
      ((hs.runtimes n).event hnet (hevent.valid.imp_right ?_))
    rintro ⟨message, hmem, rfl, hreceiver, -⟩
    exact ⟨message, hmem, rfl, hreceiver⟩
  | proposal n command task id bytes index effects node hhealthy hsettled hencode haccepted hstep =>
    refine hs.record ?_
    rw [RaftRuntime.awaitProposal_appended, Option.toList_some]
    obtain rfl := RaftNode.propose_index haccepted
    refine (hs.runtimes n).step (awaiting_of codec s n task id bytes _ effects node)
      (List.prefix_append _ _) hnet (RaftNode.propose_carries ((hs.runtimes n).ready hnet)
        (fun _ => entryGuards_crossable _ _ _) ?_ haccepted)
    -- the new entry is that of the call itself
    intro command hcommand
    obtain rfl := EntryPayload.command.inj hcommand
    exact ⟨_, List.mem_append_right _ List.mem_cons_self, rfl, rfl, rfl⟩
  | cleanup n waiters hsub => exact hs.setRuntime ((hs.runtimes n).same rfl rfl rfl)
  | restart n =>
    have hr := hs.runtimes n
    exact hs.setRuntime
      { nodeId := hr.nodeId
        consensus := hr.consensus
        id := hr.consensus
        formed := ⟨hr.store_plain, hr.store_boot, fun h => absurd rfl h⟩
        store_plain := hr.store_plain
        store_boot := hr.store_boot
        entries := hr.stored
        stored := hr.stored }

theorem attributed_run (codec : Codec) (configs : NodeId → NodeConfig)
    (acts : List RuntimeAction) : ((init configs).run codec acts).Attributed
      (fun n => Configuration.ofVoters (configs n).peers.toList) := by
  have hinit := init_attributed configs
  generalize init configs = s at hinit ⊢
  induction acts generalizing s with
  | nil => exact hinit
  | cons a acts ih => exact ih _ (hinit.step (step_cases codec s a))

/-- A call that was not there before holds the bytes of the command that is proposed. -/
theorem RuntimeStep.encoded {low : Cluster → List Action} (h : RuntimeStep codec s a s' low)
    {call : ProposeCall} (hcall : call ∈ s'.calls) : call ∈ s.calls ∨
      ∃ n command task, a = .propose n command task ∧
        codec.encode command = some call.command := by
  cases h with
  | nothing | cleanup | restart => exact Or.inl hcall
  | refused n id error =>
    exact Or.inl ((List.mem_append.mp hcall).resolve_right List.not_mem_nil)
  | event n task event act hhealthy hset hevent hact hstep =>
    refine Or.inl ((List.mem_append.mp hcall).resolve_right ?_)
    rw [RaftRuntime.drive_appended]
    exact List.not_mem_nil
  | proposal n command task id bytes index effects node hhealthy hset hencode haccepted hstep =>
    refine (List.mem_append.mp hcall).imp_right (fun hnew => ⟨n, command, task, rfl, ?_⟩)
    rw [RaftRuntime.awaitProposal_appended] at hnew
    obtain rfl := List.mem_singleton.mp hnew
    exact hencode

/-- The bytes of every call are those of a command that was proposed. -/
theorem calls_encoded (codec : Codec) (s : RuntimeCluster) (acts : List RuntimeAction)
    {call : ProposeCall} (hcall : call ∈ (s.run codec acts).calls) : call ∈ s.calls ∨
      ∃ n command task, .propose n command task ∈ acts ∧
        codec.encode command = some call.command := by
  induction acts generalizing s with
  | nil => exact Or.inl hcall
  | cons a acts ih =>
    rcases ih (s.step codec a) hcall with hearlier | ⟨n, command, task, hmem, hencode⟩
    · refine ((step_cases codec s a).encoded hearlier).imp_right ?_
      rintro ⟨n, command, task, rfl, hencode⟩
      exact ⟨n, command, task, List.mem_cons_self, hencode⟩
    · exact Or.inr ⟨n, command, task, List.mem_cons_of_mem a hmem, hencode⟩

end RuntimeCluster
end BasisDB.Runtime
