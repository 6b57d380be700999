import BasisDB.RuntimeOrigins
import BasisDB.ServiceErrors

/-! Which answers belong to their own calls, in any run whatsoever. -/
namespace BasisDB.Runtime
open BasisDB.Raft BasisDB.Kv

namespace RuntimeCluster
variable {codec : Codec} {s : RuntimeCluster} {boot : NodeId → Configuration}

/-- No two calls with the same bytes were appended at one index in different terms. -/
def Unambiguous (calls : List ProposeCall) : Prop :=
  ∀ call ∈ calls, ∀ twin ∈ calls, call.index = twin.index → call.command = twin.command →
    call.term = twin.term

instance (calls : List ProposeCall) : Decidable (Unambiguous calls) :=
  inferInstanceAs (Decidable (∀ call ∈ calls, ∀ twin ∈ calls, _))

/-- An entry that a waiting proposal takes for its own is one of its call, or of a twin. -/
theorem Attributed.ownEntry (hs : s.Attributed boot) (hregistered : s.Registered codec)
    (hcalls : Unambiguous s.calls) {m : Message} (hm : m ∈ s.net) {req : AppendRequest}
    (hreq : m.payload = .appendRequest req) {e : Entry} (he : e ∈ req.entries) (n : NodeId) :
    ownEntry s.calls (s.runtimes n).waiters e = true := by
  rw [ownEntry_iff]
  intro pending call hpending hcall hpayload
  obtain ⟨call', hcall', hindex, hcommand⟩ := hregistered.waiters n _ pending hpending
  obtain rfl : call = call' := Option.some.inj (hcall.symm.trans hcall')
  obtain ⟨twin, htwin, hindex', hterm, hcommand'⟩ := (hs.net m hm).brings req hreq e he _ hpayload
  rw [← hterm]
  exact hcalls twin htwin call (List.mem_of_getElem? hcall) (hindex'.trans hindex.symm)
    (hcommand'.trans hcommand.symm)

theorem takesOwn_of_unambiguous {configs : NodeId → NodeConfig} {acts : List RuntimeAction}
    (hcalls : Unambiguous ((init configs).run codec acts).calls) :
    TakesOwn codec (init configs) acts := by
  rw [takesOwn_iff]
  intro k a ha
  have hearlier : Unambiguous ((init configs).moment codec acts k).calls := by
    have hle := moment_calls_isPrefix codec (init configs) acts k
    exact fun call hcall twin htwin =>
      hcalls call (hle.subset hcall) twin (hle.subset htwin)
  have hattributed := attributed_run codec configs (acts.take k)
  have hregistered := registered_run codec configs (acts.take k)
  unfold moment at hearlier ⊢
  generalize (init configs).run codec (acts.take k) = s at hearlier hattributed hregistered ⊢
  cases a with
  | tick | propose | cleanup | restart => rfl
  | deliver j task =>
    simp only [takesOwn]
    cases hj : s.net[j]? with
    | none => rfl
    | some message =>
      dsimp only [RaftRuntime.bringsOwn]
      split
      · rename_i req f hpayload hrole
        rw [Bool.or_eq_true]
        refine Or.inr (List.all_eq_true.mpr (fun e he => ?_))
        exact hattributed.ownEntry hregistered hearlier (List.mem_of_getElem? hj) hpayload he _
      · rfl

/-- An answer is about the entry of its own call, unless a proposal with the same bytes was
accepted at the same index in another term. Nothing is assumed of the network, of the disks or
of what proposals are handed. -/
theorem answers_are_own_without_twins (codec : Codec) (configs : NodeId → NodeConfig)
    (acts : List RuntimeAction) (hcalls : Unambiguous ((init configs).run codec acts).calls)
    (done : Completion) (hdone : done ∈ ((init configs).run codec acts).completions)
    (hresult : done.result ≠ superseded) :
    ∃ call, ((init configs).run codec acts).calls[done.sender]? = some call ∧
      done.node = call.node ∧ done.entry = ⟨call.index, call.term, ⟨call.command⟩⟩ :=
  run_owned acts (init_sound configs) (fun _ h => absurd h List.not_mem_nil)
    (takesOwn_of_unambiguous hcalls) done hdone hresult

theorem answers_are_own_without_twins_quickRead :
    ∃ call, ((init quickNodes).run unitCodec quickRead).calls[1]? = some call ∧
      call.index = 2 ∧ call.term = 1 := by
  have hdone : (⟨1, 0, ⟨2, 1, ⟨"\"ReadBarrier\"".toUTF8.toList⟩⟩, .ok .readBarrier⟩ :
      Completion) ∈ ((init quickNodes).run unitCodec quickRead).completions := by
    decide +kernel
  obtain ⟨call, hcall, -, hentry⟩ := answers_are_own_without_twins unitCodec quickNodes quickRead
    (by decide +kernel) _ hdone (by simp [superseded])
  rw [CommittedEntry.mk.injEq] at hentry
  exact ⟨call, hcall, hentry.1.symm, hentry.2.1.symm⟩

end RuntimeCluster
end BasisDB.Runtime
