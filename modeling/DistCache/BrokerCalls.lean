import DistCache.PubSubBroker

/-!
# Whole calls of the broker

A server that handles one command at a time meets the broker between its calls.
Such a broker is at rest: its subscribers are open and no call of `Publish` has
still to send.  A call that runs by itself takes the broker from rest to rest,
and it never panics.  That `Publish` is here one function and not its steps is
justified by the run of the steps.
-/

namespace DistCache
namespace PubSub
namespace Broker

open Transition

structure Resting (b : Broker) : Prop where
  sound : b.Sound
  returned : b.Returned

def offerTo (msg : Message) (b : Broker) (id : ℕ) : Broker :=
  match b.subs[id]? with
  | none => b
  | some sub => b.setSub id (sub.offer msg)

def offerAll (b : Broker) (msg : Message) (targets : List ℕ) : Broker :=
  targets.foldl (offerTo msg) b

def closeSub (b : Broker) (id : ℕ) : Broker :=
  match b.remove id with
  | none => b
  | some removed => (removed.close id).getD removed

variable {b next : Broker}

theorem resting_new : Resting new :=
  ⟨sound_new, fun _ hmem => absurd hmem List.not_mem_nil⟩

theorem Resting.subscribe (hresting : b.Resting) (topic : Key) (buffer : ℤ) :
    (b.subscribe topic buffer).Resting :=
  ⟨hresting.sound.subscribe topic buffer, hresting.returned⟩

theorem Resting.offerTo (hresting : b.Resting) (msg : Message) (id : ℕ) :
    (b.offerTo msg id).Resting := by
  unfold Broker.offerTo
  cases hsub : b.subs[id]? with
  | none => exact hresting
  | some sub =>
      refine ⟨?_, hresting.returned⟩
      exact hresting.sound.setSub hsub (offer_phase sub msg) (offer_topic sub msg)
        fun pub hpub target htarget => ⟨pub, hpub, htarget⟩

theorem Resting.offerAll (hresting : b.Resting) (msg : Message) (targets : List ℕ) :
    (b.offerAll msg targets).Resting := by
  induction targets generalizing b with
  | nil => exact hresting
  | cons id rest ih => exact ih (hresting.offerTo msg id)

theorem publishing_receive {id : ℕ} (hstep : b.receive id = some next) :
    next.publishing = b.publishing := by
  obtain ⟨sub, msg, rest, _, _, rfl⟩ := receive_eq_some hstep
  rfl

theorem Resting.receive {id : ℕ} (hresting : b.Resting) (hstep : b.receive id = some next) :
    next.Resting := by
  refine ⟨hresting.sound.receive hstep, ?_⟩
  rw [Returned, publishing_receive hstep]
  exact hresting.returned

theorem publishing_remove {id : ℕ} (hstep : b.remove id = some next) :
    next.publishing = b.publishing := by
  obtain ⟨sub, _, _, rfl⟩ := remove_eq_some hstep
  rfl

theorem publishing_close {id : ℕ} (hstep : b.close id = some next) :
    next.publishing = b.publishing := by
  obtain ⟨sub, _, _, rfl⟩ := close_eq_some hstep
  rfl

theorem Resting.closeSub (hresting : b.Resting) (id : ℕ) : (b.closeSub id).Resting := by
  unfold Broker.closeSub
  cases hremove : b.remove id with
  | none => exact hresting
  | some removed =>
      have hreturned : removed.Returned := by
        rw [Returned, publishing_remove hremove]
        exact hresting.returned
      have hremoved : removed.Sound := hresting.sound.remove hremove
      simp only
      cases hclose : removed.close id with
      | none => exact ⟨hremoved, hreturned⟩
      | some closed =>
          rw [Option.getD_some]
          have hsettled : ∀ pub ∈ removed.publishing, id ∉ pub.targets := by
            intro pub hpub
            rw [hreturned pub hpub]
            exact List.not_mem_nil
          have hclosed : closed.Returned := by
            rw [Returned, publishing_close hclose]
            exact hreturned
          exact ⟨hremoved.close hsettled hclose, hclosed⟩

/-! ## The steps of a call of `Publish` -/

theorem phase_offerTo (msg : Message) (id : ℕ) {other : ℕ} {sub : Subscription}
    (hsub : b.subs[other]? = some sub) :
    ∃ after, (b.offerTo msg id).subs[other]? = some after ∧ after.phase = sub.phase := by
  unfold Broker.offerTo
  cases hid : b.subs[id]? with
  | none => exact ⟨sub, hsub, rfl⟩
  | some old =>
      have hlt := (List.getElem?_eq_some_iff.mp hid).1
      by_cases hsame : id = other
      · subst hsame
        have hold : old = sub := Option.some.inj (hid.symm.trans hsub)
        refine ⟨old.offer msg, ?_, ?_⟩
        · simp [setSub, hlt]
        · rw [offer_phase, hold]
      · exact ⟨sub, by simp [setSub, List.getElem?_set_ne hsame, hsub], rfl⟩

theorem offerTo_publishing (msg : Message) (id : ℕ) (b : Broker) (calls : List Publishing) :
    ({ b with publishing := calls } : Broker).offerTo msg id =
      { b.offerTo msg id with publishing := calls } := by
  unfold Broker.offerTo
  cases b.subs[id]? <;> rfl

theorem offerAll_publishing (msg : Message) (targets : List ℕ) (b : Broker)
    (calls : List Publishing) :
    ({ b with publishing := calls } : Broker).offerAll msg targets =
      { b.offerAll msg targets with publishing := calls } := by
  induction targets generalizing b with
  | nil => rfl
  | cons id rest ih =>
      have hfirst : ({ b with publishing := calls } : Broker).offerAll msg (id :: rest) =
          (({ b with publishing := calls } : Broker).offerTo msg id).offerAll msg rest := rfl
      rw [hfirst, offerTo_publishing, ih]
      rfl

theorem run_sends {msg : Message} {targets : List ℕ} {count : ℕ} {calls : List Publishing}
    (hcalls : b.publishing = calls ++ [⟨msg, targets, count⟩]) (hquiet : b.panicked = false)
    (hopen : ∀ id ∈ targets, ∃ sub, b.subs[id]? = some sub ∧ sub.phase ≠ .closed) :
    run step b (List.replicate targets.length (.send calls.length)) =
      some { b.offerAll msg targets with publishing := calls ++ [⟨msg, [], count⟩] } := by
  induction targets generalizing b with
  | nil =>
      rw [← hcalls]
      rfl
  | cons id rest ih =>
      obtain ⟨sub, hsub, hphase⟩ := hopen id (by simp)
      have hsend : step b (.send calls.length) =
          some { b.offerTo msg id with publishing := calls ++ [⟨msg, rest, count⟩] } := by
        simp [step, hquiet, send, hcalls, hsub, hphase, Broker.offerTo]
      have hrest : ∀ other ∈ rest, ∃ after,
          (b.offerTo msg id).subs[other]? = some after ∧ after.phase ≠ .closed := by
        intro other hmem
        obtain ⟨found, hfound, hopened⟩ := hopen other (List.mem_cons_of_mem id hmem)
        obtain ⟨after, hafter, hsame⟩ := phase_offerTo msg id hfound
        exact ⟨after, hafter, hsame ▸ hopened⟩
      have hstill : (b.offerTo msg id).panicked = false := by
        rw [← hquiet]
        unfold Broker.offerTo
        cases b.subs[id]? <;> rfl
      have hmore := ih (b := { b.offerTo msg id with
        publishing := calls ++ [⟨msg, rest, count⟩] }) rfl hstill hrest
      rw [List.length_cons, List.replicate_succ, run_cons, hsend, Option.bind_some, hmore,
        offerAll_publishing]
      rfl

theorem run_publish (hresting : b.Resting) {topic : Key} {payload : Bytes} {targets : List ℕ}
    (hnodup : targets.Nodup) (htargets : targets.toFinset = b.subscribers topic) :
    run step b (.publish topic payload targets ::
        List.replicate targets.length (.send b.publishing.length)) =
      some { b.offerAll ⟨topic, payload⟩ targets with
        publishing := b.publishing ++ [⟨⟨topic, payload⟩, [], targets.length⟩] } := by
  have hquiet := hresting.sound.quiet
  have hbegin : step b (.publish topic payload targets) =
      some { b with
        publishing := b.publishing ++ [⟨⟨topic, payload⟩, targets, targets.length⟩] } := by
    simp [step, hquiet, publish, hnodup, htargets]
  have hopen : ∀ id ∈ targets, ∃ sub, b.subs[id]? = some sub ∧ sub.phase ≠ .closed := by
    intro id hmem
    have hsubscriber : id ∈ b.subscribers topic := by
      rw [← htargets, List.mem_toFinset]
      exact hmem
    obtain ⟨sub, hsub, hphase⟩ := Option.map_eq_some_iff.mp
      (hresting.sound.registered topic id hsubscriber).2
    exact ⟨sub, hsub, by simp [hphase]⟩
  have hsends := run_sends (b := { b with
    publishing := b.publishing ++ [⟨⟨topic, payload⟩, targets, targets.length⟩] }) rfl hquiet
    hopen
  rw [run_cons, hbegin, Option.bind_some, hsends, offerAll_publishing]

end Broker
end PubSub
end DistCache
