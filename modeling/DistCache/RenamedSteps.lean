import DistCache.KeptDeadlines
import DistCache.Transactions

/-!
# Steps under other names for the keys

Two caches without limits hold the same under an injective renaming when the entry of a
key in the one is the entry of its new name in the other.  A step on a key and the same
step on its new name then leave, return, count and report the same.

The empty key is special: a shard reports an expired key by its name, and the empty
name stands for none.  The renaming has to keep it apart.
-/

namespace DistCache

open DeadlineStore

variable {L L' : Layout} {f : Key → Key} {key : Key}

/-! ## The step of a shard -/

/-- The key and its new name are empty together. -/
def KeepsEmpty (f : Key → Key) (key : Key) : Prop := f key = [] ↔ key = []

instance (f : Key → Key) (key : Key) : Decidable (KeepsEmpty f key) :=
  inferInstanceAs (Decidable (f key = [] ↔ key = []))

theorem expiredCount_rename (hkey : KeepsEmpty f key) :
    expiredCount (f key) = expiredCount key := by
  have hiff : f key = [] ↔ key = [] := hkey
  simp only [expiredCount, hiff]

namespace Event

def rename (f : Key → Key) (ev : Event) : Event := { ev with key := f ev.key }

def Keyed (f : Key → Key) (ev : Event) : Prop := ev.op ≠ .opFlush ∧ KeepsEmpty f ev.key

end Event

/-- The second step is the first one on the new name of its key. -/
inductive KeyOp.Renamed (f : Key → Key) : KeyOp L → KeyOp L' → Prop where
  | setTTL {key : Key} (hkey : KeepsEmpty f key) (value : Bytes) (ttl : ℤ) :
      Renamed f (.setTTL key value ttl) (.setTTL (f key) value ttl)
  | get {key : Key} (hkey : KeepsEmpty f key) : Renamed f (.get key) (.get (f key))
  | delete {key : Key} (hkey : KeepsEmpty f key) : Renamed f (.delete key) (.delete (f key))
  | exists_ {key : Key} (hkey : KeepsEmpty f key) : Renamed f (.exists_ key) (.exists_ (f key))
  | expire {key : Key} (hkey : KeepsEmpty f key) (ttl : ℤ) :
      Renamed f (.expire key ttl) (.expire (f key) ttl)
  | ttl {key : Key} (hkey : KeepsEmpty f key) : Renamed f (.ttl key) (.ttl (f key))
  | incrBy {key : Key} (hkey : KeepsEmpty f key) (delta : ℤ) :
      Renamed f (.incrBy key delta) (.incrBy (f key) delta)

theorem KeyOp.Renamed.on_key {op : KeyOp L} {op' : KeyOp L'} (hop : op.Renamed f op') :
    ∃ key, op.key? = some key ∧ op'.key? = some (f key) ∧
      ∀ clock entry, op'.leaves clock (live (op'.looksAt clock) entry) =
        op.leaves clock (live (op.looksAt clock) entry) := by
  cases hop <;> exact ⟨_, rfl, rfl, fun _ _ => rfl⟩

structure Outcome.Renamed (f : Key → Key) {α : Type} (o o' : Outcome α) : Prop where
  result : o'.result = o.result
  events : o'.events = o.events.map (Event.rename f)
  keyed : ∀ ev ∈ o.events, ev.Keyed f

namespace Shard

variable {s s' : Shard} {now : ℤ}

theorem set_of_unlimited (hentries : s.maxEntries ≤ 0) (hmemory : s.maxMemory ≤ 0)
    (key : Key) (value : Bytes) (expireAt : ℤ) :
    s.set key value expireAt =
      ⟨s.setLocked key value expireAt, [.set key value expireAt], []⟩ := by
  have hover : ¬ (s.setLocked key value expireAt).OverCapacity := by
    obtain ⟨hentries', hmemory'⟩ := s.setLocked_limits key value expireAt
    apply not_over_of_unlimited
    · rw [hentries']
      exact hentries
    · rw [hmemory']
      exact hmemory
  rw [set, enforceLimitsLocked_of_not_over hover]
  rfl

theorem keyed_one {ev : Event} (hop : ev.op ≠ .opFlush) (hkey : KeepsEmpty f ev.key) :
    ∀ e ∈ [ev], e.Keyed f := by
  intro e hmem
  rw [List.mem_singleton.mp hmem]
  exact ⟨hop, hkey⟩

theorem lookupLive_renamed {α β : Type} {absent gone gone' : α} {found found' : Item → Outcome α}
    {g : α → β} (hkey : KeepsEmpty f key) (hview : s'.view (f key) = s.view key)
    (hgone : g gone' = g gone)
    (hfound : ∀ it, g (found' it).result = g (found it).result ∧
      (found' it).events = (found it).events.map (Event.rename f) ∧
      ∀ ev ∈ (found it).events, ev.Keyed f) :
    let o := s.lookupLive key now absent gone found
    let o' := s'.lookupLive (f key) now absent gone' found'
    Outcome.Renamed f ⟨o.shard, o.events, g o.result⟩ ⟨o'.shard, o'.events, g o'.result⟩ := by
  have hlookup : s'.items.lookup (f key) = s.items.lookup key := hview
  simp only [lookupLive, hlookup]
  cases s.items.lookup key with
  | none => exact ⟨rfl, rfl, List.forall_mem_nil _⟩
  | some it =>
      by_cases hexpired : it.expired now
      · simp only [hexpired, if_true]
        exact ⟨hgone, rfl, keyed_one (by rintro ⟨⟩) hkey⟩
      · simp only [hexpired, if_false]
        obtain ⟨hresult, hevents, hkeyed⟩ := hfound it
        exact ⟨hresult, hevents, hkeyed⟩

theorem del_renamed (hkey : KeepsEmpty f key) (hview : s'.view (f key) = s.view key) :
    Outcome.Renamed f (s.del key) (s'.del (f key)) := by
  have hlookup : s'.items.lookup (f key) = s.items.lookup key := hview
  simp only [del, hlookup]
  cases s.items.lookup key with
  | none => exact ⟨rfl, rfl, List.forall_mem_nil _⟩
  | some it => exact ⟨rfl, rfl, keyed_one (by rintro ⟨⟩) hkey⟩

theorem counterBase_renamed (hentries : s.maxEntries ≤ 0) (hmemory : s.maxMemory ≤ 0)
    (hentries' : s'.maxEntries ≤ 0) (hmemory' : s'.maxMemory ≤ 0)
    (hview : s'.view (f key) = s.view key) (now : ℤ) :
    s.counterBase key now = none ∧ s'.counterBase (f key) now = none ∨
      ∃ t t' base, s.counterBase key now = some (t, base) ∧
        s'.counterBase (f key) now = some (t', base) ∧
        (t.maxEntries ≤ 0 ∧ t.maxMemory ≤ 0) ∧ t'.maxEntries ≤ 0 ∧ t'.maxMemory ≤ 0 := by
  have hlookup : s'.items.lookup (f key) = s.items.lookup key := hview
  simp only [counterBase, hlookup]
  cases s.items.lookup key with
  | none => exact Or.inr ⟨s, s', 0, rfl, rfl, ⟨hentries, hmemory⟩, hentries', hmemory'⟩
  | some it =>
      by_cases hexpired : it.expired now
      · simp only [hexpired, if_true]
        exact Or.inr ⟨_, _, 0, rfl, rfl, ⟨hentries, hmemory⟩, hentries', hmemory'⟩
      · simp only [hexpired, if_false]
        cases parseInt it.value with
        | none => exact Or.inl ⟨rfl, rfl⟩
        | some base =>
            exact Or.inr ⟨s, s', base, rfl, rfl, ⟨hentries, hmemory⟩, hentries', hmemory'⟩

theorem run_renamed (hentries : s.maxEntries ≤ 0) (hmemory : s.maxMemory ≤ 0)
    (hentries' : s'.maxEntries ≤ 0) (hmemory' : s'.maxMemory ≤ 0) (clock : Clock)
    {op : KeyOp L} {op' : KeyOp L'} (hop : op.Renamed f op')
    (hview : ∀ key, op.key? = some key → s'.view (f key) = s.view key) :
    Outcome.Renamed f (op.run clock s) (op'.run clock s') := by
  cases hop with
  | setTTL hkey value ttl =>
      simp only [KeyOp.run, set_of_unlimited hentries hmemory,
        set_of_unlimited hentries' hmemory']
      exact ⟨rfl, rfl, keyed_one (by rintro ⟨⟩) hkey⟩
  | get hkey =>
      apply lookupLive_renamed (g := fun r : Bytes × Bool × Key =>
        ((.value (if r.2.1 then some r.1 else none) : Reply),
          ({ hits := if r.2.1 then 1 else 0
             misses := if r.2.1 then 0 else 1
             expirations := expiredCount r.2.2 } : Counters))) hkey (hview _ rfl)
      · simp only [expiredCount_rename hkey]
      · exact fun it => ⟨rfl, rfl, List.forall_mem_nil _⟩
  | delete hkey =>
      have hdel := del_renamed hkey (hview _ rfl)
      refine ⟨?_, hdel.events, hdel.keyed⟩
      simp only [KeyOp.run, hdel.result]
  | exists_ hkey =>
      apply lookupLive_renamed (g := fun r : Bool × Key =>
        ((.bool r.1 : Reply), ({ expirations := expiredCount r.2 } : Counters)))
        hkey (hview _ rfl)
      · simp only [expiredCount_rename hkey]
      · exact fun it => ⟨rfl, rfl, List.forall_mem_nil _⟩
  | expire hkey ttl =>
      apply lookupLive_renamed (g := fun r : Bool × Key =>
        ((.bool r.1 : Reply), ({ expirations := expiredCount r.2 } : Counters)))
        hkey (hview _ rfl)
      · simp only [expiredCount_rename hkey]
      · exact fun it => ⟨rfl, rfl, keyed_one (by rintro ⟨⟩) hkey⟩
  | ttl hkey =>
      apply lookupLive_renamed (g := fun r : ℤ × Bool × Key =>
        ((if r.2.1 then
            if r.1 = 0 then .remaining 0 true true
            else .remaining (int64 (r.1 - clock.first)) true false
          else .remaining 0 false false : Reply),
          ({ expirations := expiredCount r.2.2 } : Counters))) hkey (hview _ rfl)
      · simp only [expiredCount_rename hkey]
      · exact fun it => ⟨rfl, rfl, List.forall_mem_nil _⟩
  | incrBy hkey delta =>
      rcases counterBase_renamed hentries hmemory hentries' hmemory' (hview _ rfl)
          clock.first with
        ⟨hnone, hnone'⟩ | ⟨t, t', base, hbase, hbase', ⟨hlow, hlow'⟩, hhigh, hhigh'⟩
      · simp only [KeyOp.run, incrBy, hnone, hnone']
        exact ⟨rfl, rfl, List.forall_mem_nil _⟩
      · simp only [KeyOp.run, incrBy, hbase, hbase', set_of_unlimited hlow hlow',
          set_of_unlimited hhigh hhigh']
        exact ⟨rfl, rfl, keyed_one (by rintro ⟨⟩) hkey⟩

end Shard

/-! ## The step of a cache -/

namespace Cache

structure Renamed (f : Key → Key) (c : Cache L) (c' : Cache L') : Prop where
  unlimited : c.Unlimited
  unlimited' : c'.Unlimited
  contents : c'.contents ∘ f = c.contents
  counters : c'.counters = c.counters

variable {c : Cache L} {c' : Cache L'}

theorem renamed_new {cfg cfg' : Config} {hash hash' : Key → ℕ} {rng rng' : ℕ → ℕ → ℕ}
    (hunlimited : (Cache.new cfg hash rng).Unlimited)
    (hunlimited' : (Cache.new cfg' hash' rng').Unlimited) :
    (Cache.new cfg hash rng).Renamed f (Cache.new cfg' hash' rng') :=
  ⟨hunlimited, hunlimited', rfl, rfl⟩

theorem Renamed.exec (hf : f.Injective) (hcache : c.Renamed f c') (clock : Clock)
    {op : KeyOp L} {op' : KeyOp L'} (hop : op.Renamed f op') :
    (c.exec ⟨clock, op⟩).1.Renamed f (c'.exec ⟨clock, op'⟩).1 ∧
      (c'.exec ⟨clock, op'⟩).2.2 = (c.exec ⟨clock, op⟩).2.2 ∧
      (c'.exec ⟨clock, op'⟩).2.1 = (c.exec ⟨clock, op⟩).2.1.map (Event.rename f) ∧
      ∀ ev ∈ (c.exec ⟨clock, op⟩).2.1, ev.Keyed f := by
  obtain ⟨key, hkey, hkey', hleaves⟩ := hop.on_key
  have hview : (c'.shards op'.shard).view (f key) = (c.shards op.shard).view key := by
    rw [KeyOp.shard_of_key? hkey, KeyOp.shard_of_key? hkey']
    exact congrFun hcache.contents key
  obtain ⟨hentries, hmemory⟩ := hcache.unlimited op.shard
  obtain ⟨hentries', hmemory'⟩ := hcache.unlimited' op'.shard
  have hrun : Outcome.Renamed f (op.run clock (c.shards op.shard))
      (op'.run clock (c'.shards op'.shard)) := by
    apply Shard.run_renamed hentries hmemory hentries' hmemory' clock hop
    intro own hown
    obtain rfl : key = own := Option.some.inj (hkey.symm.trans hown)
    exact hview
  refine ⟨⟨hcache.unlimited.exec _, hcache.unlimited'.exec _, ?_, ?_⟩, ?_, hrun.events, hrun.keyed⟩
  · have hentry : c'.contents (f key) = c.contents key := congrFun hcache.contents key
    rw [contents_exec_of_key hcache.unlimited clock hkey,
      contents_exec_of_key hcache.unlimited' clock hkey', hentry, hleaves,
      Function.update_comp_eq_of_injective _ hf, hcache.contents]
  · simp only [Cache.exec, hrun.result, hcache.counters]
  · simp only [Cache.exec, hrun.result]

end Cache

/-! ## The coordinator -/

namespace Txn

namespace Coordinator

structure Renamed (f : Key → Key) (co co' : Coordinator Unit) : Prop where
  versions : co'.versions ∘ f = co.versions
  watchers : co'.watchers ∘ f = co.watchers

variable {co co' : Coordinator Unit}

theorem Renamed.version (hco : co.Renamed f co') (key : Key) :
    co'.versions (f key) = co.versions key :=
  congrFun hco.versions key

theorem Renamed.watcher (hco : co.Renamed f co') (key : Key) :
    co'.watchers (f key) = co.watchers key :=
  congrFun hco.watchers key

theorem Renamed.onEvent (hf : f.Injective) (hco : co.Renamed f co') {ev : Event}
    (hkeyed : ev.Keyed f) : (co.onEvent ev).Renamed f (co'.onEvent (ev.rename f)) := by
  obtain ⟨hop, hkey⟩ := hkeyed
  have hiff : f ev.key = [] ↔ ev.key = [] := hkey
  have hcond : ((ev.rename f).key ≠ [] ∧ 0 < co'.watchers (ev.rename f).key) ↔
      (ev.key ≠ [] ∧ 0 < co.watchers ev.key) := by
    simp only [Event.rename, ne_eq, hiff, hco.watcher]
  have hop' : (ev.rename f).op ≠ .opFlush := hop
  unfold Coordinator.onEvent
  rw [if_neg hop, if_neg hop']
  by_cases hseen : ev.key ≠ [] ∧ 0 < co.watchers ev.key
  · rw [if_pos hseen, if_pos (hcond.mpr hseen)]
    refine ⟨?_, hco.watchers⟩
    simp only [Event.rename, hco.version]
    rw [Function.update_comp_eq_of_injective _ hf, hco.versions]
  · rw [if_neg hseen, if_neg (fun hseen' => hseen (hcond.mp hseen'))]
    exact hco

theorem Renamed.foldl_onEvent (hf : f.Injective) (hco : co.Renamed f co') {events : List Event}
    (hkeyed : ∀ ev ∈ events, ev.Keyed f) :
    (events.foldl Coordinator.onEvent co).Renamed f
      ((events.map (Event.rename f)).foldl Coordinator.onEvent co') := by
  induction events generalizing co co' with
  | nil => exact hco
  | cons ev rest ih =>
      apply ih (hco.onEvent hf (hkeyed ev List.mem_cons_self))
      exact fun other hmem => hkeyed other (List.mem_cons_of_mem ev hmem)

end Coordinator

def RenamedWatch (f : Key → Key) (watched watched' : AList fun _ : Key => ℕ) : Prop :=
  ∀ name version, watched'.lookup name = some version ↔
    ∃ key, f key = name ∧ watched.lookup key = some version

variable {watched watched' : AList fun _ : Key => ℕ}

theorem RenamedWatch.mem_iff (hf : f.Injective) (hwatch : RenamedWatch f watched watched')
    (key : Key) : f key ∈ watched' ↔ key ∈ watched := by
  rw [← AList.lookup_isSome, ← AList.lookup_isSome, Option.isSome_iff_exists,
    Option.isSome_iff_exists]
  apply exists_congr
  intro version
  rw [hwatch]
  constructor
  · rintro ⟨other, hname, hlookup⟩
    rwa [← hf hname]
  · exact fun hlookup => ⟨key, rfl, hlookup⟩

theorem RenamedWatch.insert (hf : f.Injective) (hwatch : RenamedWatch f watched watched')
    (key : Key) (version : ℕ) :
    RenamedWatch f (watched.insert key version) (watched'.insert (f key) version) := by
  intro name found
  by_cases hname : name = f key
  · subst hname
    rw [AList.lookup_insert]
    constructor
    · exact fun hfound => ⟨key, rfl, by rw [AList.lookup_insert, hfound]⟩
    · rintro ⟨other, hother, hlookup⟩
      rwa [hf hother, AList.lookup_insert] at hlookup
  · rw [AList.lookup_insert_ne hname, hwatch]
    apply exists_congr
    intro other
    apply and_congr_right
    rintro rfl
    rw [AList.lookup_insert_ne (fun heq => hname (congrArg f heq))]

namespace Coordinator

variable {co co' : Coordinator Unit} {tx : Tx L} {tx' : Tx L'}

theorem Renamed.unchanged_iff (hco : co.Renamed f co')
    (hwatch : RenamedWatch f tx.watched tx'.watched) :
    co'.Unchanged tx' ↔ co.Unchanged tx := by
  constructor
  · rintro hunchanged ⟨key, version⟩ hmem
    have hlookup := AList.mem_lookup_iff.mpr hmem
    have hmem' := AList.mem_lookup_iff.mp ((hwatch (f key) version).mpr ⟨key, rfl, hlookup⟩)
    have hversion := hunchanged _ hmem'
    rwa [hco.version] at hversion
  · rintro hunchanged ⟨name, version⟩ hmem
    obtain ⟨key, rfl, hlookup⟩ := (hwatch name version).mp (AList.mem_lookup_iff.mpr hmem)
    rw [hco.version]
    exact hunchanged ⟨key, version⟩ (AList.mem_lookup_iff.mp hlookup)

theorem Renamed.release (hf : f.Injective) (hco : co.Renamed f co')
    (hwatch : RenamedWatch f tx.watched tx'.watched) :
    (co.release tx).Renamed f (co'.release tx') := by
  constructor
  · funext key
    simp only [Coordinator.release, Function.comp_apply, hwatch.mem_iff hf, hco.watcher,
      hco.version]
  · funext key
    simp only [Coordinator.release, Function.comp_apply, hwatch.mem_iff hf, hco.watcher]

theorem Renamed.watchKey (hf : f.Injective) (hco : co.Renamed f co')
    (hwatch : RenamedWatch f tx.watched tx'.watched) (key : Key) :
    (watchKey (co, tx) key).1.Renamed f (watchKey (co', tx') (f key)).1 ∧
      RenamedWatch f (watchKey (co, tx) key).2.watched
        (watchKey (co', tx') (f key)).2.watched := by
  unfold Coordinator.watchKey
  simp only [hwatch.mem_iff hf, hco.version, hco.watcher]
  by_cases hmem : key ∈ tx.watched
  · simp only [hmem, if_true]
    exact ⟨hco, hwatch⟩
  · simp only [hmem, if_false]
    refine ⟨⟨hco.versions, ?_⟩, hwatch.insert hf key _⟩
    rw [Function.update_comp_eq_of_injective _ hf, hco.watchers]

theorem Renamed.watch (hf : f.Injective) (hco : co.Renamed f co')
    (hwatch : RenamedWatch f tx.watched tx'.watched) (keys : List Key) :
    (co.watch tx keys).1.Renamed f (co'.watch tx' (keys.map f)).1 ∧
      RenamedWatch f (co.watch tx keys).2.watched (co'.watch tx' (keys.map f)).2.watched := by
  induction keys generalizing co co' tx tx' with
  | nil => exact ⟨hco, hwatch⟩
  | cons key rest ih =>
      obtain ⟨hco', hwatch'⟩ := hco.watchKey hf hwatch key
      exact ih hco' hwatch'

end Coordinator
end Txn

end DistCache
