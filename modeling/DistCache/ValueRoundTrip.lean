import DistCache.CommandServer
import DistCache.DataDirectory
import DistCache.ExpiringMap

/-!
# Reading back what was written

A value comes into the cache with `SET` or `MSET` and is read with `GET` and `MGET`, and
in between the entry may go to another process through the append-only file or a
snapshot.  As long as it has not expired the reply is a bulk string with the value.  An
empty value is stored as a nil slice, for which the reply is nil.
-/

namespace DistCache
namespace CacheServer

open DeadlineStore Persistence Resp

variable {L : Layout} {key : Key} {value : Bytes}

/-! ## A plan as steps of the cache -/

def stepsFrom (clock : ℕ → Clock) : ℕ → List (List (KeyOp L)) → List (Step L)
  | _, [] => []
  | i, call :: rest => call.map (fun op => ⟨clock i, op⟩) ++ stepsFrom clock (i + 1) rest

def Plan.steps (p : Plan L) (clock : ℕ → Clock) (i : ℕ) : List (Step L) :=
  stepsFrom clock i p.calls

/-! ## The life of a value -/

def numbered (number : ℕ → ℕ) (events : List Event) : List Event :=
  events.mapIdx fun i ev => { ev with seq := number i }

theorem mutations_numbered (number : ℕ → ℕ) (events : List Event) :
    mutations (numbered number events) = mutations events := by
  induction events generalizing number with
  | nil => rfl
  | cons ev rest ih =>
      have hrest := ih fun i => number (i + 1)
      simp only [numbered, mutations, List.mapIdx_cons, List.filterMap_cons] at hrest ⊢
      rw [hrest]
      rfl

def Spares (key : Key) (events : List Event) : Prop :=
  ∀ mutation ∈ mutations events, ¬ mutation.Overwrites key

/-- The value was written under the key and is neither overwritten nor deleted.
`file` has the records of the append-only file.  The cache of another process is
filled from that file or from a snapshot of the cache, each read from its bytes. -/
inductive Held (lib : Lib) (key : Key) (value : Bytes) :
    (L : Layout) → Cache L → List Event → Prop where
  | set {L : Layout} {c : Cache L} (hplaced : c.Placed) (hunlimited : c.Unlimited)
      (file : List Event) (number : ℕ → ℕ) (name : Bytes) {opts : List Bytes} {ttl : ℤ}
      (hopts : setOptions lib 0 opts = .ok ttl) (clock : ℕ → Clock) (i : ℕ)
      {steps : List (Step L)}
      (hsteps : steps = (cmdSet lib ⟨name, key :: value :: opts⟩ : Plan L).steps clock i) :
      Held lib key value L (c.execAll steps).1 (file ++ numbered number (c.execAll steps).2)
  | mset {L : Layout} {c : Cache L} (hplaced : c.Placed) (hunlimited : c.Unlimited)
      (file : List Event) (number : ℕ → ℕ) (name : Bytes) {args : List Bytes}
      (heven : args.length % 2 = 0) {before after : List (Key × Bytes)}
      (hpairs : pairs args = before ++ (key, value) :: after)
      (hlast : key ∉ after.map Prod.fst) (clock : ℕ → Clock) (i : ℕ) {steps : List (Step L)}
      (hsteps : steps = (cmdMSet ⟨name, args⟩ : Plan L).steps clock i) :
      Held lib key value L (c.execAll steps).1 (file ++ numbered number (c.execAll steps).2)
  | others {L : Layout} {c : Cache L} {file : List Event} (hheld : Held lib key value L c file)
      (number : ℕ → ℕ) (steps : List (Step L)) (hspares : Spares key (c.execAll steps).2) :
      Held lib key value L (c.execAll steps).1 (file ++ numbered number (c.execAll steps).2)
  | fromAOF {L fresh : Layout} {c : Cache L} {file : List Event}
      (hheld : Held lib key value L c file) (hfits : ∀ ev ∈ file, ev.Fits) {c' : Cache fresh}
      (hplaced : c'.Placed) (hunlimited : c'.Unlimited) :
      Held lib key value fresh (c'.applyEvents (readAOF (encodeAll file)).events) file
  | fromSnapshot {L fresh : Layout} {c : Cache L} {file : List Event}
      (hheld : Held lib key value L c file) {now : ℤ}
      (hlive : ∀ it, c.contents key = some it → ¬ it.expired now)
      {s : Snapshot} {order : List (Key × Item)} (horder : order.Perm (c.exportEntries now))
      (hentries : s.entries = order.map snapshotRecord) (hstart : s.startSeq < 2 ^ 64)
      (hfits : ∀ ev ∈ s.entries, ev.Fits) {seq : ℕ} {reading : Reading}
      (hread : readSnapshot (some (encodeSnapshot s)) = .ok (seq, reading)) {c' : Cache fresh}
      (hplaced : c'.Placed) (hunlimited : c'.Unlimited) :
      Held lib key value fresh (c'.applyEvents reading.events) file

/-- What a history keeps: the cache has the value, and so has every cache that
the file is replayed into. -/
structure Keeps (key : Key) (value : Bytes) (c : Cache L) (file : List Event) : Prop where
  placed : c.Placed
  contents : (c.contents key).map Entry.value = some value
  file : ∀ store : Contents, (replay (mutations file) store key).map Entry.value = some value

theorem event_setTTL {c : Cache L} (hunlimited : c.Unlimited) (clock : Clock) (key : Key)
    (value : Bytes) (ttl : ℤ) :
    (c.exec ⟨clock, .setTTL key value ttl⟩).2.1 =
      [.set key value (deadline clock.first ttl)] := by
  obtain ⟨hentries, hmemory⟩ := hunlimited (L.index key)
  have hlimits := (c.shards (L.index key)).setLocked_limits key value (deadline clock.first ttl)
  have hover := Shard.not_over_of_unlimited (hlimits.1.trans_le hentries)
    (hlimits.2.trans_le hmemory)
  simp only [Cache.exec, KeyOp.run, KeyOp.shard, Shard.set,
    Shard.enforceLimitsLocked_of_not_over hover, List.map_nil]

theorem events_mset {c : Cache L} (hunlimited : c.Unlimited) (clock : ℕ → Clock) (i : ℕ)
    (writes : List (Key × Bytes)) :
    (c.execAll (stepsFrom clock i (writes.map fun p => [.setTTL p.1 p.2 0]))).2 =
      writes.map fun p => .set p.1 p.2 0 := by
  induction writes generalizing c i with
  | nil => rfl
  | cons p rest ih =>
      have hevent := event_setTTL hunlimited (clock i) p.1 p.2 0
      have hrest := ih (hunlimited.exec ⟨clock i, .setTTL p.1 p.2 0⟩) (i + 1)
      simp only [List.map_cons, stepsFrom, List.map_nil, List.singleton_append, Cache.execAll,
        hevent, hrest]
      rfl

theorem mutations_map_set (writes : List (Key × Bytes)) :
    mutations (writes.map fun p => .set p.1 p.2 0) =
      writes.map fun p => .set p.1 ⟨p.2, 0⟩ := by
  induction writes with
  | nil => rfl
  | cons p rest ih => rw [List.map_cons, mutations_set_cons, ih, List.map_cons]

theorem stepsFrom_not_flush {clock : ℕ → Clock} {i : ℕ} {calls : List (List (KeyOp L))}
    (hcalls : ∀ call ∈ calls, ∀ op ∈ call, ¬ op.IsFlush) :
    ∀ step ∈ stepsFrom clock i calls, ¬ step.op.IsFlush := by
  induction calls generalizing i with
  | nil => exact fun step hstep => absurd hstep List.not_mem_nil
  | cons call rest ih =>
      intro step hstep
      rcases List.mem_append.mp hstep with hcall | hrest
      · obtain ⟨op, hop, rfl⟩ := List.mem_map.mp hcall
        exact hcalls call List.mem_cons_self op hop
      · exact ih (fun other hmem => hcalls other (List.mem_cons_of_mem call hmem)) step hrest

theorem Keeps.of_last_set {c : Cache L} (hplaced : c.Placed) {steps : List (Step L)}
    (hsteps : ∀ step ∈ steps, ¬ step.op.IsFlush) {before after : List (Mutation Key Bytes ℤ)}
    {expireAt : ℤ}
    (hevents : mutations (c.execAll steps).2 = before ++ .set key ⟨value, expireAt⟩ :: after)
    (hafter : ∀ mutation ∈ after, ¬ mutation.Overwrites key) (file : List Event)
    (number : ℕ → ℕ) :
    Keeps key value (c.execAll steps).1 (file ++ numbered number (c.execAll steps).2) := by
  obtain ⟨hcontents, hplaced'⟩ := Cache.execAll_explained hplaced hsteps
  refine ⟨hplaced', ?_, ?_⟩
  · rw [hcontents, hevents]
    exact replay_value_of_last_set hafter c.contents
  · intro store
    rw [mutations_append, mutations_numbered, replay_append, hevents]
    exact replay_value_of_last_set hafter _

theorem Spares.not_flush {c : Cache L} {steps : List (Step L)}
    (hspares : Spares key (c.execAll steps).2) : ∀ step ∈ steps, ¬ step.op.IsFlush := by
  induction steps generalizing c with
  | nil => exact fun step hstep => absurd hstep List.not_mem_nil
  | cons first rest ih =>
      have hsplit : mutations (c.execAll (first :: rest)).2 =
          mutations (c.exec first).2.1 ++ mutations ((c.exec first).1.execAll rest).2 :=
        mutations_append _ _
      rw [Spares, hsplit] at hspares
      intro step hstep
      rcases List.mem_cons.mp hstep with rfl | hrest
      · intro hflush
        obtain ⟨clock, op⟩ := step
        cases op with
        | flush shard => exact hspares .flush (List.mem_append_left _ List.mem_cons_self) trivial
        | _ => exact hflush
      · have htail : Spares key ((c.exec first).1.execAll rest).2 :=
          fun mutation hmem => hspares mutation (List.mem_append_right _ hmem)
        exact ih htail step hrest

theorem Keeps.others {c : Cache L} {file : List Event} (hkeeps : Keeps key value c file)
    (number : ℕ → ℕ) {steps : List (Step L)} (hspares : Spares key (c.execAll steps).2) :
    Keeps key value (c.execAll steps).1 (file ++ numbered number (c.execAll steps).2) := by
  obtain ⟨hcontents, hplaced⟩ := Cache.execAll_explained hkeeps.placed hspares.not_flush
  refine ⟨hplaced, ?_, ?_⟩
  · rw [hcontents, replay_value_of_not_overwrites _ hspares, hkeeps.contents]
  · intro store
    rw [mutations_append, mutations_numbered, replay_append,
      replay_value_of_not_overwrites _ hspares, hkeeps.file]

theorem Keeps.applyEvents {fresh : Layout} {c : Cache L} {file events : List Event}
    (hkeeps : Keeps key value c file) {c' : Cache fresh} (hplaced : c'.Placed)
    (hunlimited : c'.Unlimited)
    (hevents : (replay (mutations events) c'.contents key).map Entry.value = some value) :
    Keeps key value (c'.applyEvents events) file := by
  refine ⟨hplaced.applyEvents events, ?_, hkeeps.file⟩
  rw [Cache.contents_applyEvents hunlimited, hevents]

theorem Keeps.replay_export {c : Cache L} {file : List Event} (hkeeps : Keeps key value c file)
    {now : ℤ} (hlive : ∀ it, c.contents key = some it → ¬ it.expired now)
    {order : List (Key × Item)} (horder : order.Perm (c.exportEntries now)) (store : Contents) :
    (replay (mutations (order.map snapshotRecord)) store key).map Entry.value =
      some value := by
  obtain ⟨it, hit, hvalue⟩ := Option.map_eq_some_iff.mp hkeeps.contents
  have hentry : (key, it) ∈ c.exportEntries now := by
    rw [Cache.mem_exportEntries_iff hkeeps.placed]
    simp [hit, live, hlive it hit]
  have hnodup : (order.map Prod.fst).Nodup := by
    rw [(horder.map Prod.fst).nodup_iff, ← Cache.keys_eq_map]
    exact Cache.nodup_keys hkeeps.placed
  have hfound := (replay_sets hnodup store key).1 it (horder.mem_iff.mpr hentry)
  rw [mutations_snapshotRecords, hfound, Option.map_some, hvalue]

theorem Held.keeps {lib : Lib} {c : Cache L} {file : List Event}
    (hheld : Held lib key value L c file) : Keeps key value c file := by
  induction hheld with
  | @set L c hplaced hunlimited file number name opts ttl hopts clock i steps hsteps =>
      have hone : steps = [⟨clock i, .setTTL key value ttl⟩] := by
        rw [hsteps]
        simp [Plan.steps, cmdSet, hopts, stepsFrom]
      have hevents : mutations (c.execAll steps).2 =
          [] ++ .set key ⟨value, deadline (clock i).first ttl⟩ :: [] := by
        simp only [hone, Cache.execAll, event_setTTL hunlimited, List.append_nil]
        rfl
      apply Keeps.of_last_set hplaced _ hevents
      · exact fun mutation hmem => absurd hmem List.not_mem_nil
      · intro step hstep
        rw [hone, List.mem_singleton] at hstep
        rw [hstep]
        exact id
  | @mset L c hplaced hunlimited file number name args heven before after hpairs hlast clock i
      steps hsteps =>
      have hcount : ¬ (args.length < 2 ∨ (args.length + 1) % 2 = 0) := by
        have htwo : ¬ args.length < 2 := by
          intro hshort
          rcases args with _ | ⟨first, _ | ⟨second, rest⟩⟩
          · simp [pairs] at hpairs
          · simp [pairs] at hpairs
          · simp at hshort
        omega
      have hwrites : steps =
          stepsFrom clock i ((pairs args).map fun p => [.setTTL p.1 p.2 0]) := by
        rw [hsteps, Plan.steps, cmdMSet, if_neg hcount]
      have hevents : mutations (c.execAll steps).2 =
          (before.map fun p => .set p.1 ⟨p.2, 0⟩) ++
            .set key ⟨value, 0⟩ :: after.map fun p => .set p.1 ⟨p.2, 0⟩ := by
        rw [hwrites, events_mset hunlimited, mutations_map_set, hpairs, List.map_append,
          List.map_cons]
      apply Keeps.of_last_set hplaced _ hevents
      · intro mutation hmem
        obtain ⟨p, hp, rfl⟩ := List.mem_map.mp hmem
        rintro rfl
        exact hlast (List.mem_map_of_mem hp)
      · rw [hwrites]
        apply stepsFrom_not_flush
        intro call hcall op hop
        obtain ⟨p, _, rfl⟩ := List.mem_map.mp hcall
        rw [List.mem_singleton.mp hop]
        exact id
  | others _ number steps hspares ih => exact ih.others number hspares
  | @fromAOF L fresh c file _ hfits c' hplaced hunlimited ih =>
      rw [readAOF_encodeAll hfits]
      exact ih.applyEvents hplaced hunlimited (ih.file _)
  | @fromSnapshot L fresh c file _ now hlive s order horder hentries hstart hfits seq reading
      hread c' hplaced hunlimited ih =>
      rw [Disk.readSnapshot_encodeSnapshot hstart hfits, Except.ok.injEq, Prod.mk.injEq] at hread
      rw [← hread.2, hentries]
      exact ih.applyEvents hplaced hunlimited (ih.replay_export hlive horder _)

/-! ## Reading -/

section Reading

variable {c : Cache L} {it : Item}

theorem reply_get {clock : Clock} (hheld : c.contents key = some it)
    (hlive : ¬ it.expired clock.first) :
    (c.exec ⟨clock, .get key⟩).2.2 = .value (some it.value) := by
  have hview : live clock.first ((c.shards (L.index key)).view key) = some it := by
    have hcontents : (c.shards (L.index key)).view key = some it := hheld
    simp [hcontents, live, hlive]
  have hresult := ((c.shards (L.index key)).get_spec key clock.first).2
  rw [hview] at hresult
  exact congrArg DistCache.Reply.value hresult

theorem contents_get {clock : Clock} (hheld : c.contents key = some it)
    (hlive : ¬ it.expired clock.first) (other : Key) :
    (c.exec ⟨clock, .get other⟩).1.contents key = some it := by
  rw [Cache.contents_exec_of_shard]
  by_cases hshard : L.index key = (KeyOp.get other : KeyOp L).shard
  · rw [if_pos hshard]
    have hsame := ((c.shards (L.index other)).get_spec other clock.first).1 key
    have hview : (c.shards (L.index other)).view key = some it := by
      rw [← hheld, Cache.contents, hshard]
      rfl
    rw [hview] at hsame
    exact (live_eq_some (hsame.trans (live_of_not_expired hlive))).1
  · rw [if_neg hshard]
    exact hheld

theorem getElem_mget {clock : ℕ → Clock} {i j : ℕ} {e : Engine L} {wanted : List Key}
    (hheld : e.cache.contents key = some it)
    (hlive : ∀ n < wanted.length, ¬ it.expired (clock (i + n)).first)
    (hj : wanted[j]? = some key) :
    (runCalls clock i e (wanted.map fun k => [.get k])).2[j]? =
      some (.value (some it.value)) := by
  induction wanted generalizing i j e with
  | nil => simp at hj
  | cons first rest ih =>
      have hnow : ¬ it.expired (clock i).first := hlive 0 (Nat.zero_lt_succ _)
      simp only [List.map_cons, runCalls, runCall, List.singleton_append]
      cases j with
      | zero =>
          have hfirst : first = key := by simpa using hj
          rw [List.getElem?_cons_zero, hfirst, reply_get hheld hnow]
      | succ j =>
          rw [List.getElem?_cons_succ]
          apply ih
          · exact contents_get hheld hnow first
          · intro n hn
            have hlater := hlive (n + 1) (Nat.succ_lt_succ hn)
            rwa [show i + (n + 1) = i + 1 + n by omega] at hlater
          · simpa using hj

theorem rBulk_stored_eq_bulk_iff (value : Bytes) :
    rBulk (stored value) = .bulk value ↔ value ≠ [] := by
  unfold stored
  by_cases hempty : value = []
  · simp [hempty, rBulk, rNil]
  · simp [hempty, rBulk]

end Reading

/-- A value that was written and kept is what the key holds.  As long as it has not
expired, `GET` and `MGET` reply with it in a bulk string exactly if it is not
empty. -/
theorem value_read_back_iff {lib : Lib} {L : Layout} {key : Key} {value : Bytes} {c : Cache L}
    {file : List Event} (hheld : Held lib key value L c file) :
    ∃ expireAt, c.contents key = some ⟨value, expireAt⟩ ∧
      ∀ (e : Engine L) (clock : ℕ → Clock) (i : ℕ) (name : Bytes), e.cache = c →
        ((¬ (⟨value, expireAt⟩ : Item).expired (clock i).first →
          (((cmdGet ⟨name, [key]⟩ : Plan L).run clock i e).2 = .bulk value ↔ value ≠ [])) ∧
        ∀ (wanted : List Key) (j : ℕ), wanted[j]? = some key →
          (∀ n < wanted.length, ¬ (⟨value, expireAt⟩ : Item).expired (clock (i + n)).first) →
          ((∃ items, ((cmdMGet ⟨name, wanted⟩ : Plan L).run clock i e).2 = .array items ∧
              items[j]? = some (.bulk value)) ↔ value ≠ [])) := by
  obtain ⟨⟨found, expireAt⟩, hcontents, hvalue⟩ :=
    Option.map_eq_some_iff.mp hheld.keeps.contents
  have hfound : found = value := hvalue
  subst found
  refine ⟨expireAt, hcontents, ?_⟩
  rintro e clock i name rfl
  constructor
  · intro hlive
    have hreply := reply_get hcontents hlive
    have hrun : ((cmdGet ⟨name, [key]⟩ : Plan L).run clock i e).2 = rBulk (stored value) := by
      simp only [Plan.run, cmdGet, runCalls, runCall, hreply, List.append_nil, List.headD_cons,
        rFound]
    rw [hrun, rBulk_stored_eq_bulk_iff]
  · intro wanted j hj hlive
    have hget := getElem_mget hcontents hlive hj
    have hrun : ((cmdMGet ⟨name, wanted⟩ : Plan L).run clock i e).2 =
        .array ((runCalls clock i e (wanted.map fun k => [.get k])).2.map rFound) := by
      cases wanted with
      | nil => simp at hj
      | cons first rest => rfl
    rw [hrun, ← rBulk_stored_eq_bulk_iff]
    have hitem : ((runCalls clock i e (wanted.map fun k => [.get k])).2.map rFound)[j]? =
        some (rBulk (stored value)) := by
      rw [List.getElem?_map, hget]
      rfl
    constructor
    · rintro ⟨items, hitems, hbulk⟩
      rw [← Value.array.inj hitems, hitem] at hbulk
      exact Option.some.inj hbulk
    · intro hbulk
      exact ⟨_, rfl, by rw [hitem, hbulk]⟩

def oneShard : Cache (DistCache.Config.layout ⟨1, 0, 0, .lru⟩ fun _ => 0) :=
  Cache.unlimited 1 .lru (fun _ => 0) fun _ _ => 0

/-- `SET`, a restart from the append-only file, `GET`. -/
theorem value_read_back_iff_restarted :
    let written := oneShard.execAll
      ((cmdSet asciiOnly ⟨text "SET", [[107], [13, 10]]⟩ : Plan _).steps (fun _ => ⟨3, 3⟩) 0)
    let restored := oneShard.applyEvents
      (readAOF (encodeAll (numbered (fun _ => 1) written.2))).events
    ((cmdGet ⟨text "GET", [[107]]⟩ : Plan _).run (fun _ => ⟨5, 5⟩) 0
      (Engine.start restored 0)).2 = .bulk [13, 10] := by
  intro written restored
  have hplaced : oneShard.Placed := Cache.placed_new _ _ fun _ _ => 0
  have hunlimited : oneShard.Unlimited := Cache.unlimited_unlimited _ _ _ _
  have hopts : setOptions asciiOnly 0 [] = .ok 0 := rfl
  have hset : Held asciiOnly [107] [13, 10] _ written.1 (numbered (fun _ => 1) written.2) :=
    .set hplaced hunlimited [] (fun _ => 1) (text "SET") hopts (fun _ => ⟨3, 3⟩) 0 rfl
  have hfits : ∀ ev ∈ numbered (fun _ => 1) written.2, ev.Fits := by
    have hfile : numbered (fun _ => 1) written.2 = [⟨1, .opSet, [107], [13, 10], 0⟩] := rfl
    rw [hfile]
    intro ev hmem
    rw [List.mem_singleton.mp hmem]
    exact ⟨by decide, by decide, by decide, by decide⟩
  obtain ⟨expireAt, hcontents, hread⟩ :=
    value_read_back_iff (hset.fromAOF hfits hplaced hunlimited)
  have hnever : restored.contents [107] = some ⟨[13, 10], 0⟩ := by decide +kernel
  have hzero : expireAt = 0 := by
    have hsame := hcontents.symm.trans hnever
    simpa using hsame
  have hget := (hread (Engine.start restored 0) (fun _ => ⟨5, 5⟩) 0 (text "GET") rfl).1
  rw [hzero] at hget
  exact (hget (by decide)).mpr (by decide)

/-- An empty value is stored, and reading it replies nil. -/
theorem empty_value_reads_nil :
    ((cmdSet asciiOnly ⟨text "SET", [[107], []]⟩ : Plan _).run (fun _ => ⟨3, 3⟩) 0
        (Engine.start oneShard 0)).2 = rOK ∧
      ((cmdGet ⟨text "GET", [[107]]⟩ : Plan _).run (fun _ => ⟨5, 5⟩) 0
        ((cmdSet asciiOnly ⟨text "SET", [[107], []]⟩ : Plan _).run (fun _ => ⟨3, 3⟩) 0
          (Engine.start oneShard 0)).1).2 = .nil ∧
      ((cmdMGet ⟨text "MGET", [[107]]⟩ : Plan _).run (fun _ => ⟨5, 5⟩) 0
        ((cmdSet asciiOnly ⟨text "SET", [[107], []]⟩ : Plan _).run (fun _ => ⟨3, 3⟩) 0
          (Engine.start oneShard 0)).1).2 = .array [.nil] := by
  exact ⟨rfl, rfl, rfl⟩

end CacheServer
end DistCache
