import DistCache.WriteLimits

/-!
# The key that an eviction spares

If the policy proposes the key that has just been written, the loop that enforces the
limits ends and gives the key back to the policy as a new one.  Its frequency under
`lfu`, its place under `fifo` and its deadline under `ttl` are lost.  The key keeps its
rank, and the keys that are left their order, if a new key would have come to the same
place, as under `lru`.
-/

namespace DistCache

open DeadlineStore Eviction

namespace Eviction

/-! ## Ranks -/

inductive Rank where
  | unranked
  | frequency (n : Option ℕ)
  | deadline (expireAt : Option ℤ)
  deriving DecidableEq

def Kind.rank (kind : Kind) (r : Record) : Rank :=
  match kind with
  | .lfu => .frequency (some r.freq)
  | .ttl => .deadline (some r.deadline)
  | _ => .unranked

namespace Policy

/-- What the policy knows of a key beside its place in the order. -/
def rank (policy : Policy) (key : Key) : Rank :=
  match policy with
  | .lfu p => .frequency (p.nodes.lookup key)
  | .ttl p => .deadline (p.eff.lookup key)
  | _ => .unranked

/-- A new key would come to the place of the written one: the key is not used yet, no
other one has been inserted after it, it has no deadline. -/
def AsNew (policy : Policy) (key : Key) (expireAt : ℤ) : Prop :=
  match policy with
  | .lfu p => key ∉ p.nodes
  | .fifo p => following key p.ll = []
  | .ttl _ => effective expireAt = ttlNever
  | _ => True

/-- Under `ttl` all other keys have a deadline. -/
def OthersExpire (policy : Policy) (key : Key) : Prop :=
  match policy with
  | .ttl p => ∀ other e, other ≠ key → p.eff.lookup other = some e → e < ttlNever
  | _ => True

variable {policy : Policy} {record : Key → Option Record} {key : Key}

theorem Recorded.rank_eq (hrecorded : policy.Recorded record) {r : Record}
    (hrecord : record key = some r) : policy.rank key = policy.kind.rank r := by
  cases policy with
  | lfu p => simp [rank, Kind.rank, Policy.kind, Lfu.Recorded.freq hrecorded, hrecord]
  | ttl p => simp [rank, Kind.rank, Policy.kind, Ttl.Recorded.deadline hrecorded, hrecord]
  | _ => rfl

theorem rank_add (hnot : ¬ policy.Tracks key) (ledger : Ledger) :
    (policy.add key).rank key = policy.kind.rank ledger.fresh := by
  cases policy with
  | lfu p =>
      have hkey : key ∉ p.nodes := hnot
      simp [rank, Policy.add, Lfu.add, hkey, Kind.rank, Policy.kind, Ledger.fresh]
  | ttl p =>
      have hkey : key ∉ p.eff := hnot
      simp [rank, Policy.add, Ttl.add, hkey, Kind.rank, Policy.kind, Ledger.fresh]
  | _ => rfl

theorem rank_evict {keys : List Key} {victim : Key} (hfollows : policy.Follows keys)
    (hevict : policy.evict.1 = some victim) (hne : victim ≠ key) :
    policy.evict.2.rank key = policy.rank key := by
  cases policy with
  | lfu p =>
      have hnodes := (hfollows.1.evict_some hevict).2.2
      simp only [rank, Policy.evict, hnodes, AList.lookup_erase_ne (Ne.symm hne)]
  | ttl p =>
      have heff : p.evict.2.eff = p.eff.erase victim := (hfollows.1.evictLoop_some hevict).2.2
      simp only [rank, Policy.evict, heff, AList.lookup_erase_ne (Ne.symm hne)]
  | _ => rfl

/-- The records determine the order of an `lfu` policy. -/
theorem Recorded.order_eq {p q : Lfu} (hp : (Policy.lfu p).Recorded record)
    (hq : (Policy.lfu q).Recorded record) :
    (Policy.lfu p).order = (Policy.lfu q).order := by
  have hkind : ∀ lfu : Lfu, (Policy.lfu lfu).kind ≠ .noEviction := fun _ => by simp [Policy.kind]
  have hmem : ∀ other, other ∈ (Policy.lfu p).order ↔ other ∈ (Policy.lfu q).order := fun other =>
    (hp.mem_order_iff (hkind p)).trans (hq.mem_order_iff (hkind q)).symm
  have hperm : (Policy.lfu p).order.Perm (Policy.lfu q).order :=
    (List.perm_ext_iff_of_nodup (hp.nodup_order (hkind p)) (hq.nodup_order (hkind q))).mpr hmem
  apply hperm.eq_of_pairwise _ hp.pairwise_order hq.pairwise_order
  intro first second _ _ hsooner hlater
  obtain ⟨r, s, hr, hs, hrs⟩ := hsooner
  obtain ⟨s', r', hs', hr', hsr⟩ := hlater
  rw [hr, Option.some.injEq] at hr'
  rw [hs, Option.some.injEq] at hs'
  subst r' s'
  simp only [Policy.kind, Kind.Sooner] at hrs hsr
  omega

theorem eq_lfu_of_kind (hkind : policy.kind = .lfu) : ∃ p, policy = .lfu p := by
  cases policy with
  | lfu p => exact ⟨p, rfl⟩
  | _ => simp [Policy.kind] at hkind

theorem eq_fifo_of_kind (hkind : policy.kind = .fifo) : ∃ p, policy = .fifo p := by
  cases policy with
  | fifo p => exact ⟨p, rfl⟩
  | _ => simp [Policy.kind] at hkind

theorem not_mem_nodes_iff {p : Lfu} {ledger : Ledger}
    (hrecorded : (Policy.lfu p).Recorded ledger.record) (htimed : ledger.Timed) {n : ℕ}
    (hn : n = ((ledger.record key).map Record.freq).getD 0 + 1) : key ∉ p.nodes ↔ n = 1 := by
  rw [← AList.lookup_eq_none, Lfu.Recorded.freq hrecorded, hn]
  cases hrecord : ledger.record key with
  | none => simp
  | some r =>
      have hpos := (htimed key r hrecord).freq
      simp only [Option.map_some, reduceCtorEq, Option.getD_some, false_iff]
      omega

end Policy
end Eviction

namespace Shard

/-! ## The loop that spares a key -/

/-- From the first shard the loop gets to the last one, which is over a limit and
whose policy proposes the key. -/
inductive Spares (key : Key) : Shard → Shard → Prop where
  | here {s : Shard} (hover : s.OverCapacity) (hevict : s.policy.evict.1 = some key) :
      Spares key s s
  | drop {s last : Shard} {victim : Key} {it : Item} (hover : s.OverCapacity)
      (hevict : s.policy.evict.1 = some victim) (hne : victim ≠ key)
      (hlookup : s.items.lookup victim = some it)
      (hrest : Spares key
        (({ s with policy := s.policy.evict.2 } : Shard).dropVictim victim it) last) :
      Spares key s last
  | skip {s last : Shard} {victim : Key} (hover : s.OverCapacity)
      (hevict : s.policy.evict.1 = some victim) (hne : victim ≠ key)
      (hlookup : s.items.lookup victim = none)
      (hrest : Spares key { s with policy := s.policy.evict.2 } last) :
      Spares key s last

variable {s last : Shard} {key : Key}

/-- The key has its rank from before, and the keys that are left their order. -/
def KeepsRank (key : Key) (before after : Shard) : Prop :=
  after.policy.rank key = before.policy.rank key ∧
    after.policy.order = before.policy.order.filter (· ∈ after.items)

instance (key : Key) (before after : Shard) : Decidable (KeepsRank key before after) :=
  inferInstanceAs (Decidable (_ ∧ _))

/-- What the loop has done when it comes to the last shard. -/
structure Spared (key : Key) (s last : Shard) : Prop where
  result : (s.enforceLimitsLocked key).1 = { last with policy := last.policy.evict.2.add key }
  exact_ : last.Exact
  evict : last.policy.evict.1 = some key
  kind_eq : last.policy.kind = s.policy.kind
  rank_eq : last.policy.rank key = s.policy.rank key
  held : ∀ other ∈ last.items, other ∈ s.items
  order_eq : ∃ dropped, s.policy.order = dropped ++ last.policy.order ∧ key ∉ dropped ∧
    ∀ other ∈ dropped, other ∉ last.items
  recorded : ∀ record, s.policy.Recorded record → ∃ part, last.policy.Recorded part ∧
    part key = record key ∧ ∀ other r, part other = some r → record other = some r

theorem Spares.spared (hspares : Spares key s last) (hexact : s.Exact) : Spared key s last := by
  induction hspares with
  | here hover hevict =>
      exact {
        result := by rw [enforceLimitsLocked_of_spare hover hevict]
        exact_ := hexact
        evict := hevict
        kind_eq := rfl
        rank_eq := rfl
        held := fun _ hheld => hheld
        order_eq := ⟨[], rfl, List.not_mem_nil, fun _ h => absurd h List.not_mem_nil⟩
        recorded := fun record hrecorded => ⟨record, hrecorded, rfl, fun _ _ h => h⟩ }
  | @drop s last victim it hover hevict hne hlookup hrest ih =>
      have hnext := ih (hexact.update (.drop victim it hevict hlookup trivial))
      obtain ⟨dropped, horder, hkey, hgone⟩ := hnext.order_eq
      have hvictim : victim ∉ last.items := fun hheld =>
        (AList.mem_erase.mp (hnext.held victim hheld)).1 rfl
      exact {
        result := by
          rw [enforceLimitsLocked_of_drop hover hevict hne hlookup]
          exact hnext.result
        exact_ := hnext.exact_
        evict := hnext.evict
        kind_eq := hnext.kind_eq.trans s.policy.kind_evict
        rank_eq := hnext.rank_eq.trans (Policy.rank_evict hexact.follows hevict hne)
        held := fun other hheld => (AList.mem_erase.mp (hnext.held other hheld)).2
        order_eq := by
          refine ⟨victim :: dropped, ?_, ?_, ?_⟩
          · rw [Policy.order_of_some hevict, List.cons_append, List.cons.injEq]
            exact ⟨rfl, horder⟩
          · rw [List.mem_cons, not_or]
            exact ⟨Ne.symm hne, hkey⟩
          · rw [List.forall_mem_cons]
            exact ⟨hvictim, hgone⟩
        recorded := by
          intro record hrecorded
          obtain ⟨part, hpart, hsame, hsub⟩ :=
            hnext.recorded _ (hrecorded.evict_some hevict).1
          refine ⟨part, hpart, ?_, ?_⟩
          · rw [hsame, Function.update_of_ne (Ne.symm hne)]
          · intro other r hr
            have hupdated := hsub other r hr
            by_cases hother : other = victim
            · simp [hother] at hupdated
            · rwa [Function.update_of_ne hother] at hupdated }
  | skip hover hevict hne hlookup hrest ih =>
      obtain ⟨it, hheld⟩ := hexact.lookup_of_evict hevict
      rw [hlookup] at hheld
      contradiction

namespace Spared

variable (hspared : Spared key s last)

include hspared

theorem kind_ne : last.policy.kind ≠ .noEviction := by
  intro hkind
  have hevict := hspared.evict
  cases hpolicy : last.policy with
  | noEviction p => simp [hpolicy, Policy.evict] at hevict
  | _ => simp [hpolicy, Policy.kind] at hkind

theorem order_last : last.policy.order = key :: last.policy.evict.2.order :=
  Policy.order_of_some hspared.evict

theorem following_order : following key s.policy.order = last.policy.evict.2.order := by
  obtain ⟨dropped, horder, hkey, -⟩ := hspared.order_eq
  rw [horder, following_append hkey, hspared.order_last]
  simp [following]

theorem filter_order : s.policy.order.filter (· ∈ last.items) = last.policy.order := by
  obtain ⟨dropped, horder, -, hgone⟩ := hspared.order_eq
  have hperm := hspared.exact_.follows.perm_order hspared.kind_ne
  have hnone : dropped.filter (· ∈ last.items) = [] := by
    rw [List.filter_eq_nil_iff]
    exact fun other hother => by simpa using hgone other hother
  have hall : last.policy.order.filter (· ∈ last.items) = last.policy.order := by
    rw [List.filter_eq_self]
    intro other hother
    simpa using AList.mem_keys.mpr (hperm.mem_iff.mp hother)
  rw [horder, List.filter_append, hnone, hall, List.nil_append]

theorem perm_order_add : (last.policy.evict.2.add key).order.Perm last.policy.order := by
  have hafter := (hspared.exact_.update (.spare key hspared.evict)).follows
  have hkind : (last.policy.evict.2.add key).kind ≠ .noEviction := by
    simpa using hspared.kind_ne
  exact (hafter.perm_order hkind).trans
    (hspared.exact_.follows.perm_order hspared.kind_ne).symm

theorem order_of_nothing_follows (hnil : last.policy.evict.2.order = []) :
    (last.policy.evict.2.add key).order = last.policy.order := by
  have hperm := hspared.perm_order_add
  rw [hspared.order_last, hnil] at hperm ⊢
  exact List.perm_singleton.mp hperm

theorem not_tracks : ¬ last.policy.evict.2.Tracks key := by
  obtain ⟨_, hfollows⟩ := hspared.exact_.follows.evict_some hspared.evict
  rw [hfollows.tracks_iff (by simpa using hspared.kind_ne)]
  exact last.items.keys_nodup.not_mem_erase

theorem order_of_lfu_new {q : Lfu} (hpolicy : last.policy = .lfu q)
    {record : Key → Option Record} (hrecorded : s.policy.Recorded record) {r : Record}
    (hr : record key = some r) (hfreq : r.freq = 1)
    (hnewest : ∀ other t, other ≠ key → record other = some t → t.touched < r.touched)
    (hpos : ∀ other t, record other = some t → 1 ≤ t.freq) :
    (last.policy.evict.2.add key).order = last.policy.order := by
  obtain ⟨part, hpart, hsame, hsub⟩ := hspared.recorded record hrecorded
  have hnext := (hpart.evict_some hspared.evict).1
  have hothers : ∀ other t, Function.update part key none other = some t →
      other ≠ key ∧ record other = some t := by
    intro other t ht
    by_cases hother : other = key
    · simp [hother] at ht
    · exact ⟨hother, hsub other t (by rwa [Function.update_of_ne hother] at ht)⟩
  rw [hpolicy] at hpart hnext ⊢
  have hadded := Lfu.Recorded.add_new hnext (Function.update_self key none part) r hfreq
    (fun other t ht => hnewest other t (hothers other t ht).1 (hothers other t ht).2)
    (fun other t ht => hpos other t (hothers other t ht).2)
  rw [Function.update_idem, ← hr, ← hsame, Function.update_eq_self] at hadded
  exact Policy.Recorded.order_eq hadded hpart

theorem order_fifo_iff {q : Fifo} (hpolicy : last.policy = .fifo q) :
    (last.policy.evict.2.add key).order = last.policy.order ↔ last.policy.evict.2.order = [] := by
  refine ⟨fun hsame => ?_, hspared.order_of_nothing_follows⟩
  have hkey := hspared.not_tracks
  rw [hspared.order_last] at hsame
  rw [hpolicy] at hkey hsame ⊢
  have hgone : key ∉ q.evict.2.ll := hkey
  simp only [Policy.evict, Policy.add, Fifo.add, dif_neg hgone, Policy.order_fifo] at hsame ⊢
  cases hrest : q.evict.2.ll with
  | nil => rfl
  | cons first rest =>
      rw [hrest] at hsame hgone
      rw [List.cons_append, List.cons.injEq] at hsame
      exact absurd (hsame.1 ▸ List.mem_cons_self) hgone

theorem keepsRank_iff :
    KeepsRank key s (s.enforceLimitsLocked key).1 ↔
      s.policy.kind.rank Ledger.empty.fresh = s.policy.rank key ∧
        (last.policy.evict.2.add key).order = last.policy.order := by
  rw [hspared.result]
  simp only [KeepsRank]
  rw [hspared.filter_order, Policy.rank_add hspared.not_tracks .empty, Policy.kind_evict,
    hspared.kind_eq]

theorem ne_and_held {other : Key} (hother : other ∈ last.policy.evict.2.order) :
    other ≠ key ∧ other ∈ s.items := by
  obtain ⟨_, hfollows⟩ := hspared.exact_.follows.evict_some hspared.evict
  have hkind : last.policy.evict.2.kind ≠ .noEviction := by simpa using hspared.kind_ne
  rw [(hfollows.perm_order hkind).mem_iff, last.items.keys_nodup.mem_erase_iff] at hother
  exact ⟨hother.1, hspared.held other (AList.mem_keys.mpr hother.2)⟩

end Spared

theorem Exact.recorded_setLocked {ledger : Ledger} (hexact : s.Exact)
    (hkind : s.policy.kind ≠ .noEviction) (hkept : Watched.Kept ⟨s.policy, ledger⟩) (key : Key)
    (it : Item) :
    ∃ r, (s.setLocked key it.value it.expireAt).policy.Recorded
        (Function.update ledger.record key (some r)) ∧
      r.touched = ledger.calls ∧ r.freq = ((ledger.record key).map Record.freq).getD 0 + 1 ∧
      (s.policy.kind = .ttl → r.deadline = effective it.expireAt) := by
  obtain ⟨r, hrecord, hfacts⟩ := Watched.record_write ⟨s.policy, ledger⟩ key it.expireAt
  refine ⟨r, ?_, hfacts⟩
  rw [hexact.policy_setLocked hkind]
  exact hrecord ▸ ((hkept.call (.add key)).call (.note key it.expireAt)).recorded

theorem Spared.order_of_none_later {ledger : Ledger} {it : Item} (hexact : s.Exact)
    (hkind : s.policy.kind ≠ .noEviction) (hkept : Watched.Kept ⟨s.policy, ledger⟩)
    (hspared : Spared key (s.setLocked key it.value it.expireAt) last)
    (hnone : ∀ other ≠ key, s.policy.later key it.expireAt other = false ∧
      s.policy.tied it.expireAt other = false) :
    (last.policy.evict.2.add key).order = last.policy.order := by
  apply hspared.order_of_nothing_follows
  rw [List.eq_nil_iff_forall_not_mem]
  intro other hother
  obtain ⟨hne, hheld⟩ := hspared.ne_and_held hother
  have htracks := (hexact.follows.tracks_iff hkind).mpr
    (AList.mem_keys.mp (((s.mem_setLocked key it.value it.expireAt).mp hheld).resolve_left hne))
  rw [← hspared.following_order, hexact.policy_setLocked hkind] at hother
  have hcases := (hkept.following hkind hne htracks it.expireAt).2 hother
  simp [hnone other hne] at hcases

/-- The rank of a written key that is spared: kept only if the key came to the place
of a new one, and kept then, unless under `ttl` other keys have no deadline either. -/
theorem keepsRank_setLocked {it : Item} (hexact : s.Exact) (hledgered : s.Ledgered)
    (hrandom : s.policy.kind ≠ .random)
    (hspared : Spared key (s.setLocked key it.value it.expireAt) last) :
    let mid := s.setLocked key it.value it.expireAt
    (KeepsRank key mid (mid.enforceLimitsLocked key).1 → s.policy.AsNew key it.expireAt) ∧
      (s.policy.AsNew key it.expireAt → s.policy.OthersExpire key →
        KeepsRank key mid (mid.enforceLimitsLocked key).1) := by
  intro mid
  obtain ⟨ledger, hkept⟩ := hledgered
  have hsame : mid.policy.kind = s.policy.kind := by
    simp only [mid, setLocked]
    cases s.items.lookup key <;> simp
  have hkind : s.policy.kind ≠ .noEviction := by
    rw [← hsame, ← hspared.kind_eq]
    exact hspared.kind_ne
  obtain ⟨r, hmid, htouched, hfreq, hdeadline⟩ := hexact.recorded_setLocked hkind hkept key it
  have hrecorded : s.policy.Recorded ledger.record := hkept.recorded
  have htimed : ledger.Timed := hkept.timed
  rw [hspared.keepsRank_iff, hmid.rank_eq (Function.update_self key (some r) ledger.record), hsame]
  have hlast := hspared.kind_eq.trans hsame
  cases hpolicy' : s.policy with
  | noEviction p => simp [hpolicy', Policy.kind] at hkind
  | random p => simp [hpolicy', Policy.kind] at hrandom
  | lru p =>
      refine ⟨fun _ => trivial,
        fun _ _ => ⟨rfl, hspared.order_of_none_later hexact hkind hkept ?_⟩⟩
      intro other _
      rw [hpolicy']
      exact ⟨rfl, rfl⟩
  | lfu p =>
      rw [hpolicy'] at hrecorded hlast
      obtain ⟨q, hq⟩ := Policy.eq_lfu_of_kind hlast
      have hnew : key ∉ p.nodes ↔ r.freq = 1 := Policy.not_mem_nodes_iff hrecorded htimed hfreq
      have hrank : Kind.lfu.rank Ledger.empty.fresh = Kind.lfu.rank r ↔ r.freq = 1 := by
        simp [Kind.rank, Ledger.fresh, eq_comm]
      refine ⟨fun hkeeps => hnew.mpr (hrank.mp hkeeps.1),
        fun hnot _ => ⟨hrank.mpr (hnew.mp hnot), ?_⟩⟩
      apply hspared.order_of_lfu_new hq hmid (Function.update_self key (some r) ledger.record)
        (hnew.mp hnot)
      · intro other t hne ht
        rw [Function.update_of_ne hne] at ht
        exact htouched ▸ (htimed other t ht).touched
      · intro other t ht
        by_cases hother : other = key
        · rw [hother, Function.update_self, Option.some.injEq] at ht
          rw [← ht, hnew.mp hnot]
        · rw [Function.update_of_ne hother] at ht
          exact (htimed other t ht).freq
  | fifo p =>
      rw [hpolicy'] at hlast
      obtain ⟨q, hq⟩ := Policy.eq_fifo_of_kind hlast
      have hrest : last.policy.evict.2.order = following key p.ll := by
        rw [← hspared.following_order, hexact.policy_setLocked hkind, hpolicy']
        exact Policy.following_order_add p key
      rw [hspared.order_fifo_iff hq, hrest]
      exact ⟨fun hkeeps => hkeeps.2, fun hnil _ => ⟨rfl, hnil⟩⟩
  | ttl p =>
      have hrank : Kind.ttl.rank Ledger.empty.fresh = Kind.ttl.rank r ↔
          effective it.expireAt = ttlNever := by
        rw [← hdeadline (by rw [hpolicy']; rfl)]
        simp [Kind.rank, Ledger.fresh, eq_comm]
      refine ⟨fun hkeeps => hrank.mp hkeeps.1, fun hnever hothers => ⟨hrank.mpr hnever, ?_⟩⟩
      apply hspared.order_of_none_later hexact hkind hkept
      intro other hne
      have hnever' : effective it.expireAt = ttlNever := hnever
      simp only [hpolicy', Policy.later, Policy.tied, hnever', decide_eq_false_iff_not]
      cases hlookup : p.eff.lookup other with
      | none => simp
      | some e =>
          have hsoon : e < ttlNever := hothers other e hne hlookup
          simp only [Option.getD_some, Option.some.injEq]
          omega

end Shard

namespace ShardOp

end ShardOp
end DistCache
