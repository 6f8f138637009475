import DistCache.CapacityLimits
import DistCache.RecencyOrder

/-!
# What an `lru` shard evicts

A key is used by a `get` that finds it and by every write of it.  The list of an
`lru` policy is the order of the last use of the keys that the shard holds, newest
first, after any history of hits, misses, overwrites, deletions, expiries and
evictions.  So a write evicts from the least recently used key on, and only as
many keys as it must.
-/

namespace DistCache

open DeadlineStore Eviction Recency

/-! ## Uses, writes and events of an operation -/

namespace ShardOp

def written (s : Shard) : ShardOp → Option (Key × Item)
  | .set key value expireAt => some (key, ⟨value, expireAt⟩)
  | .applySet key value expireAt => some (key, ⟨value, expireAt⟩)
  | .incrBy key delta now =>
      match (s.incrBy key delta now).result with
      | .ok (newVal, _) => some (key, ⟨formatInt newVal, 0⟩)
      | .error _ => none
  | _ => none

def touched (s : Shard) : ShardOp → List Key
  | .get key now => if (s.get key now).result.2.1 then [key] else []
  | op => ((op.written s).map Prod.fst).toList

def uses : Shard → List ShardOp → List Key
  | _, [] => []
  | s, op :: rest => touched s op ++ uses (run s op) rest

def emitted (s : Shard) : ShardOp → List Event
  | .get key now => (s.get key now).events
  | .set key value expireAt => (s.set key value expireAt).events
  | .del key => (s.del key).events
  | .exists_ key now => (s.exists_ key now).events
  | .expire key expireAt now => (s.expire key expireAt now).events
  | .ttl key now => (s.ttl key now).events
  | .incrBy key delta now => (s.incrBy key delta now).events
  | .flush => s.flush.events
  | .sweepExpired now sample order => (s.sweepExpired now sample order).events
  | .applySet _ _ _ => []
  | .applyDel _ => []
  | .applyExpire _ _ => []
  | .flushSilent => []

end ShardOp

namespace Shard

variable {s : Shard} {key : Key} {used : List Key}

def recency (s : Shard) (used : List Key) : List Key := used.dedup.filter (· ∈ s.items)

def without (items : AList fun _ : Key => Item) (gone : List Key) :
    AList fun _ : Key => Item :=
  gone.foldl (fun rest key => rest.erase key) items

def Roomy (maxEntries maxMemory : ℤ) (items : AList fun _ : Key => Item) : Prop :=
  (0 < maxEntries → (items.keys.length : ℤ) ≤ maxEntries) ∧
    (0 < maxMemory → AListSum.weight itemSize items ≤ maxMemory)

/-! ## Dropping keys is erasing them -/

theorem erase_of_lookup_none {items : AList fun _ : Key => Item}
    (hlookup : items.lookup key = none) : items.erase key = items := by
  have habsent : key ∉ items.entries.keys := List.dlookup_eq_none.mp hlookup
  exact AList.ext (List.kerase_of_notMem_keys habsent)

theorem items_dropAll (s : Shard) (gone : List Key) :
    (s.dropAll gone).items = without s.items gone := by
  induction gone generalizing s with
  | nil => rfl
  | cons victim rest ih =>
      rw [dropAll_cons, ih]
      cases hlookup : s.items.lookup victim with
      | none => rw [without, without, List.foldl_cons, erase_of_lookup_none hlookup]
      | some it => rfl

theorem weight_dropAll (hmem : s.mem = AListSum.weight itemSize s.items) (gone : List Key) :
    (s.dropAll gone).mem = AListSum.weight itemSize (s.dropAll gone).items := by
  induction gone generalizing s with
  | nil => exact hmem
  | cons victim rest ih =>
      rw [dropAll_cons]
      cases hlookup : s.items.lookup victim with
      | none => exact ih hmem
      | some it => exact ih (Kept.mem_remove hmem hlookup)

theorem not_over_iff_roomy (hmem : s.mem = AListSum.weight itemSize s.items) :
    ¬ s.OverCapacity ↔ Roomy s.maxEntries s.maxMemory s.items := by
  unfold OverCapacity Roomy
  rw [← hmem]
  omega

theorem not_over_dropAll_iff (hmem : s.mem = AListSum.weight itemSize s.items)
    (gone : List Key) :
    ¬ (s.dropAll gone).OverCapacity ↔
      Roomy s.maxEntries s.maxMemory (without s.items gone) := by
  obtain ⟨hentries, hmemory⟩ := s.dropAll_limits gone
  rw [not_over_iff_roomy (weight_dropAll hmem gone), hentries, hmemory, items_dropAll]

theorem lookup_without {gone : List Key} (hkey : key ∉ gone)
    (items : AList fun _ : Key => Item) :
    (without items gone).lookup key = items.lookup key := by
  induction gone generalizing items with
  | nil => rfl
  | cons victim rest ih =>
      rw [List.mem_cons, not_or] at hkey
      have hrest := ih hkey.2 (items.erase victim)
      rwa [AList.lookup_erase_ne hkey.1] at hrest

/-! ## The loop with the written key in front -/

theorem evict_lru {p : Lru} (hpolicy : s.policy = .lru p) (rest : List Key) {last : Key}
    (hll : p.ll = rest ++ [last]) :
    ∃ q : Lru, s.policy.evict = (some last, .lru q) ∧ q.ll = rest := by
  have hlast : p.ll.getLast? = some last := by
    rw [hll]
    exact List.getLast?_concat
  refine ⟨p.evict.2, ?_, ?_⟩
  · rw [hpolicy, Policy.evict]
    simp only [Lru.evict, hlast]
  · simp only [Lru.evict, hlast]
    rw [hll, List.dropLast_concat]

/-- The loop drops keys from the front of the order, and no more of them than it
must; what is left of the policy's list keeps its order. -/
structure DropsFrom (s : Shard) (key : Key) (p : Lru) (order : List Key) : Prop where
  shortest : ShortestPrefix (fun gone => ¬ (s.dropAll gone).OverCapacity) order
    (s.enforceLimitsLocked key).2
  after : ∃ q : Lru, q.ll.Sublist p.ll ∧ (s.enforceLimitsLocked key).1 =
    { s.dropAll (s.enforceLimitsLocked key).2 with policy := .lru q }

theorem dropsFrom_of_not_over {p : Lru} (hpolicy : s.policy = .lru p)
    (hwithin : ¬ s.OverCapacity) (order : List Key) : s.DropsFrom key p order := by
  have hstop : s.enforceLimitsLocked key = (s, []) := enforceLimitsLocked_of_not_over hwithin
  constructor
  · rw [hstop]
    exact .of_enough hwithin
  · refine ⟨p, List.Sublist.refl _, ?_⟩
    rw [hstop, ← hpolicy]
    rfl

theorem dropsFrom_alone {p : Lru} (hpolicy : s.policy = .lru p) (hall : p.ll = [key])
    (hover : s.OverCapacity) : s.DropsFrom key p [] := by
  obtain ⟨q, hevict, hq⟩ := evict_lru hpolicy [] hall
  have hstop : s.enforceLimitsLocked key = ({ s with policy := .lru (q.add key) }, []) := by
    rw [enforceLimitsLocked_of_spare hover (congrArg Prod.fst hevict), hevict]
    rfl
  constructor
  · rw [hstop]
    exact .of_nil
  · refine ⟨q.add key, ?_, by rw [hstop]; rfl⟩
    simp only [Lru.add, hq, hall, List.erase_nil]
    exact List.Sublist.refl _

theorem DropsFrom.cons {p q : Lru} {last : Key} {it : Item} {order : List Key}
    (hover : s.OverCapacity) (hevict : s.policy.evict = (some last, .lru q)) (hne : last ≠ key)
    (hlookup : s.items.lookup last = some it) (hpart : q.ll.Sublist p.ll)
    (hrest : (({ s with policy := .lru q } : Shard).dropVictim last it).DropsFrom key q order) :
    s.DropsFrom key p (last :: order) := by
  have hturn : s.enforceLimitsLocked key =
      ((({ s with policy := .lru q } : Shard).dropVictim last it).enforceLimitsLocked key).map id
        (last :: ·) := by
    rw [enforceLimitsLocked_of_drop hover (congrArg Prod.fst hevict) hne hlookup, hevict]
  obtain ⟨r, hr, heq⟩ := hrest.after
  constructor
  · rw [hturn]
    apply ShortestPrefix.cons (not_not_intro hover)
    apply hrest.shortest.congr
    intro more
    rw [dropAll_of_drop hlookup]
    rfl
  · refine ⟨r, hr.trans hpart, ?_⟩
    rw [hturn, Prod.map_fst, Prod.map_snd, id_eq, heq, dropAll_of_drop hlookup]

theorem dropsFrom_lru {p : Lru} {rest : List Key} (hexact : s.Exact)
    (hpolicy : s.policy = .lru p) (hfront : p.ll = key :: rest) :
    s.DropsFrom key p rest.reverse := by
  induction rest using List.reverseRecOn generalizing s p with
  | nil =>
      by_cases hover : s.OverCapacity
      · exact dropsFrom_alone hpolicy hfront hover
      · exact dropsFrom_of_not_over hpolicy hover _
  | append_singleton rest last ih =>
      by_cases hover : s.OverCapacity
      · obtain ⟨q, hevict, hq⟩ := evict_lru hpolicy (key :: rest) hfront
        have hvictim : s.policy.evict.1 = some last := congrArg Prod.fst hevict
        have hne : last ≠ key := by
          rintro rfl
          have hnodup := p.nodup
          rw [hfront] at hnodup
          simp at hnodup
        obtain ⟨it, hlookup⟩ := hexact.lookup_of_evict hvictim
        have hafter := hexact.update (.drop last it hvictim hlookup trivial)
        rw [hevict] at hafter
        have hpart : q.ll.Sublist p.ll := by
          rw [hfront, ← List.cons_append, ← hq]
          exact List.sublist_append_left _ _
        rw [List.reverse_append]
        exact .cons hover hevict hne hlookup hpart (ih hafter rfl hq)
      · exact dropsFrom_of_not_over hpolicy hover _

/-! ## The list of the policy is the order of the last use -/

/-- The policy's list, read from the back, is a part of the order of the last
use.  The shard's books say which part. -/
def InOrder (used : List Key) (s : Shard) : Prop :=
  ∃ p : Lru, s.policy = .lru p ∧ p.ll.reverse.Sublist used.dedup

namespace InOrder

theorem new (rng : ℕ → ℕ) (maxEntries maxMemory : ℤ) :
    (Shard.new (Eviction.new rng .lru) maxEntries maxMemory).InOrder [] :=
  ⟨_, rfl, List.Sublist.refl _⟩

theorem removeLocked (horder : s.InOrder used) (key : Key) (it : Item) :
    (s.removeLocked key it).InOrder used := by
  obtain ⟨p, hpolicy, hpart⟩ := horder
  exact ⟨p.remove key, by rw [Shard.removeLocked, hpolicy]; rfl, reverse_erase_sublist hpart key⟩

theorem retime (horder : s.InOrder used) (key : Key) (it : Item) (expireAt : ℤ) :
    (s.retime key it expireAt).InOrder used := by
  obtain ⟨p, hpolicy, hpart⟩ := horder
  exact ⟨p, by rw [Shard.retime, hpolicy]; rfl, hpart⟩

theorem foldl_remove {p : Lru} (hpart : p.ll.reverse.Sublist used.dedup) (keys : List Key) :
    ∃ q : Lru, keys.foldl Policy.remove (.lru p) = .lru q ∧
      q.ll.reverse.Sublist used.dedup := by
  induction keys generalizing p with
  | nil => exact ⟨p, rfl, hpart⟩
  | cons key rest ih =>
      have hremoved : (p.remove key).ll.reverse.Sublist used.dedup :=
        reverse_erase_sublist hpart key
      exact ih hremoved

theorem flushSilent (horder : s.InOrder used) : s.flushSilent.InOrder used := by
  obtain ⟨p, hpolicy, hpart⟩ := horder
  unfold Shard.flushSilent
  rw [hpolicy]
  exact foldl_remove hpart s.items.keys

theorem access (horder : s.InOrder used) {it : Item} (hexact : s.Exact)
    (hlookup : s.items.lookup key = some it) :
    ({ s with policy := s.policy.access key } : Shard).InOrder (used ++ [key]) := by
  obtain ⟨p, hpolicy, hpart⟩ := horder
  have hheld : key ∈ p.ll := by
    have htracks := hexact.kept.tracked key (by simp [view, hlookup])
    rw [hpolicy] at htracks
    exact htracks
  refine ⟨p.access key, by rw [hpolicy]; rfl, ?_⟩
  rw [Lru.access, if_pos hheld]
  exact sublist_dedup_toFront p.nodup hpart key

theorem shrinks {next : Shard} (horder : s.InOrder used) (hshrinks : s.Shrinks next) :
    next.InOrder used := by
  refine hshrinks.invariant (fun before after hs hshrink => ?_) horder
  cases hshrink with
  | remove key it _ => exact hs.removeLocked key it
  | retime key it expireAt _ => exact hs.retime key it expireAt
  | flush => exact hs.flushSilent

theorem get (horder : s.InOrder used) (hexact : s.Exact) (key : Key) (now : ℤ) :
    (s.get key now).shard.InOrder (used ++ ShardOp.touched s (.get key now)) := by
  rw [ShardOp.touched]
  rcases s.get_cases key now with ⟨hmiss, hshrinks⟩ | ⟨it, hlookup, hhit, hfound⟩
  · rw [hmiss, if_neg Bool.false_ne_true, List.append_nil]
    exact horder.shrinks hshrinks
  · rw [hhit, if_pos rfl, hfound]
    exact horder.access hexact hlookup

end InOrder

/-! ## A write -/

/-- A write stores its entry in the shard or, for a counter that has expired, in
the shard without it. -/
structure WritesTo (s before : Shard) (key : Key) : Prop where
  insert : ∀ it : Item, before.items.insert key it = s.items.insert key it
  limits : before.maxEntries = s.maxEntries ∧ before.maxMemory = s.maxMemory
  exact_ : s.Exact → before.Exact
  order : ∀ used, s.InOrder used → before.InOrder used

theorem WritesTo.refl (s : Shard) (key : Key) : WritesTo s s key :=
  ⟨fun _ => rfl, ⟨rfl, rfl⟩, id, fun _ => id⟩

theorem writesTo_removeLocked {it : Item} (hlookup : s.items.lookup key = some it) :
    WritesTo s (s.removeLocked key it) key := by
  refine ⟨?_, ⟨rfl, rfl⟩, ?_, fun used horder => horder.removeLocked key it⟩
  · intro new
    have hgone : (s.items.erase key).erase key = s.items.erase key :=
      erase_of_lookup_none (AList.lookup_erase key s.items)
    apply AList.ext
    simpa [Shard.removeLocked, AList.insert, List.kinsert, AListSum.entries_erase] using
      congrArg AList.entries hgone
  · intro hexact
    exact hexact.update (.remove key it hlookup trivial)

theorem writesTo_counterBase {now : ℤ} {base : Shard × ℤ}
    (hbase : s.counterBase key now = some base) : WritesTo s base.1 key := by
  rcases counterBase_cases hbase with hsame | ⟨it, hlookup, _, hremoved⟩
  · rw [hsame]
    exact .refl s key
  · rw [hremoved]
    exact writesTo_removeLocked hlookup

theorem items_setLocked (s : Shard) (key : Key) (value : Bytes) (expireAt : ℤ) :
    (s.setLocked key value expireAt).items = s.items.insert key ⟨value, expireAt⟩ := by
  unfold setLocked
  cases s.items.lookup key <;> rfl

theorem WritesTo.items_setLocked {before : Shard} (hto : s.WritesTo before key) (it : Item) :
    (before.setLocked key it.value it.expireAt).items = s.items.insert key it := by
  rw [Shard.items_setLocked, hto.insert]

theorem InOrder.others {before : Shard} {p q : Lru} (it : Item) (hexact : before.Exact)
    (hto : s.WritesTo before key) (hpart : p.ll.reverse.Sublist used.dedup)
    (hstored : (before.setLocked key it.value it.expireAt).policy = .lru q)
    (hfront : q.ll = key :: p.ll.erase key) :
    (p.ll.erase key).reverse = (s.recency used).filter (· ≠ key) := by
  have hmid := hexact.update (.store key it.value it.expireAt)
  have hitems := hto.items_setLocked it
  have htracks : ∀ other, other ∈ q.ll ↔ other ∈ (s.items.insert key it).keys := by
    intro other
    have hiff : Policy.Tracks _ other ↔ _ :=
      hmid.follows.tracks_iff (by simp [hstored, Policy.kind])
    rw [hstored, hitems] at hiff
    exact hiff
  have hrest := reverse_erase_sublist hpart key
  have hnew : key ∉ p.ll.erase key := p.nodup.not_mem_erase
  rw [recency, List.filter_filter, eq_filter_of_sublist (P := fun other => other ∈ s.items ∧
    other ≠ key) (List.nodup_dedup used) hrest]
  · apply List.filter_congr
    intro other _
    by_cases hne : other = key
    · simp [hne]
    · simp [hne]
  · intro other
    have hiff := htracks other
    rw [hfront, List.mem_cons, ← AList.mem_keys, AList.mem_insert] at hiff
    rw [List.mem_reverse]
    constructor
    · intro hother
      have hne : other ≠ key := by
        rintro rfl
        exact hnew hother
      have hheld := (hiff.mp (Or.inr hother)).resolve_left hne
      exact ⟨hrest.subset (List.mem_reverse.mpr hother), hheld, hne⟩
    · rintro ⟨_, hheld, hne⟩
      exact (hiff.mpr (Or.inr hheld)).resolve_left hne

end Shard

namespace ShardOp

variable {s : Shard} {key : Key} {it : Item} {op : ShardOp} {used : List Key}

theorem run_of_written (hwritten : op.written s = some (key, it)) :
    ∃ before, s.WritesTo before key ∧
      run s op =
        ((before.setLocked key it.value it.expireAt).enforceLimitsLocked key).1 ∧
      (op ≠ .applySet key it.value it.expireAt → op.emitted s =
        .set key it.value it.expireAt ::
          ((before.setLocked key it.value it.expireAt).enforceLimitsLocked key).2.map .del) := by
  cases op with
  | set other value expireAt =>
      cases hwritten
      exact ⟨s, .refl s key, rfl, fun _ => rfl⟩
  | applySet other value expireAt =>
      cases hwritten
      exact ⟨s, .refl s key, rfl, fun hne => absurd rfl hne⟩
  | incrBy other delta now =>
      cases hbase : s.counterBase other now with
      | none => simp [written, Shard.incrBy, hbase] at hwritten
      | some base =>
          simp only [written, Shard.incrBy, hbase, Option.some.injEq, Prod.mk.injEq] at hwritten
          obtain ⟨rfl, rfl⟩ := hwritten
          refine ⟨base.1, Shard.writesTo_counterBase hbase, ?_, ?_⟩
          · simp only [run, Shard.incrBy, hbase, Shard.set]
          · intro _
            simp only [emitted, Shard.incrBy, hbase, Shard.set]
  | _ => cases hwritten

theorem evicts_of_written (hexact : s.Exact) (horder : s.InOrder used)
    (hwritten : op.written s = some (key, it)) :
    ∃ evicted,
      ShortestPrefix
        (fun gone => Shard.Roomy s.maxEntries s.maxMemory
          (Shard.without (s.items.insert key it) gone))
        ((s.recency used).filter (· ≠ key)) evicted ∧
      (run s op).items = Shard.without (s.items.insert key it) evicted ∧
      (op ≠ .applySet key it.value it.expireAt →
        op.emitted s = .set key it.value it.expireAt :: evicted.map .del) ∧
      (run s op).InOrder (used ++ [key]) := by
  obtain ⟨before, hto, hrun, hemitted⟩ := run_of_written hwritten
  have hbefore := hto.exact_ hexact
  obtain ⟨p, hpolicy, hpart⟩ := hto.order used horder
  obtain ⟨q, hstored, hfront⟩ := Shard.lru_setLocked hbefore hpolicy key it.value it.expireAt
  have hothers := Shard.InOrder.others it hbefore hto hpart hstored hfront
  have hmid := hbefore.update (.store key it.value it.expireAt)
  have hitems := hto.items_setLocked it
  have hlimits : (before.setLocked key it.value it.expireAt).maxEntries = s.maxEntries ∧
      (before.setLocked key it.value it.expireAt).maxMemory = s.maxMemory := by
    rw [← hto.limits.1, ← hto.limits.2]
    unfold Shard.setLocked
    cases before.items.lookup key <;> exact ⟨rfl, rfl⟩
  have hdrops := Shard.dropsFrom_lru hmid hstored hfront
  obtain ⟨r, hr, hafter⟩ := hdrops.after
  refine ⟨_, ?_, ?_, hemitted, ?_⟩
  · rw [← hothers]
    apply hdrops.shortest.congr
    intro gone
    rw [Shard.not_over_dropAll_iff hmid.kept.mem_eq, hlimits.1, hlimits.2, hitems]
  · rw [hrun, hafter, ← hitems, ← Shard.items_dropAll]
  · refine ⟨r, by rw [hrun, hafter], ?_⟩
    have hfirst := sublist_dedup_toFront p.nodup hpart key
    rw [← hfront] at hfirst
    exact hr.reverse.trans hfirst

theorem inOrder_run (hexact : s.Exact) (horder : s.InOrder used) (op : ShardOp) :
    (run s op).InOrder (used ++ op.touched s) := by
  have hquiet : s.InOrder (used ++ []) := by rwa [List.append_nil]
  cases op with
  | get key now => exact horder.get hexact key now
  | set key value expireAt =>
      have hwritten : (ShardOp.set key value expireAt).written s = some (key, ⟨value, expireAt⟩) :=
        rfl
      obtain ⟨_, _, _, _, hafter⟩ := evicts_of_written hexact horder hwritten
      exact hafter
  | applySet key value expireAt =>
      have hwritten : (ShardOp.applySet key value expireAt).written s =
          some (key, ⟨value, expireAt⟩) := rfl
      obtain ⟨_, _, _, _, hafter⟩ := evicts_of_written hexact horder hwritten
      exact hafter
  | incrBy key delta now =>
      cases hbase : s.counterBase key now with
      | none => simpa [run, touched, written, Shard.incrBy, hbase] using horder
      | some base =>
          have hwritten : (ShardOp.incrBy key delta now).written s =
              some (key, ⟨formatInt (int64 (base.2 + delta)), 0⟩) := by
            simp only [written, Shard.incrBy, hbase]
          obtain ⟨_, _, _, _, hafter⟩ := evicts_of_written hexact horder hwritten
          rw [touched, hwritten]
          · exact hafter
          · simp
  | _ => exact Shard.InOrder.shrinks hquiet (shrinks_run s trivial)

theorem inOrder_runAll (hexact : s.Exact) (horder : s.InOrder used) (ops : List ShardOp) :
    (runAll s ops).InOrder (used ++ uses s ops) := by
  induction ops generalizing s used with
  | nil =>
      rw [uses, List.append_nil]
      exact horder
  | cons op rest ih =>
      rw [uses, ← List.append_assoc]
      exact ih (hexact.runAll [op]) (inOrder_run hexact horder op)

/-- After any operations on an `lru` shard, a write evicts the shortest prefix of
the other keys by their last use that brings the shard within both limits, or all
of them; its own key stays with the entry it stored, and its events name the keys
in the order in which they go.  An `incrBy` that fails does nothing. -/
theorem lru_evicts_least_recent (rng : ℕ → ℕ) (maxEntries maxMemory : ℤ)
    (ops : List ShardOp) (op : ShardOp) (key : Key) (hwrites : op.writes = some key) :
    let fresh := Shard.new (Eviction.new rng .lru) maxEntries maxMemory
    let s := runAll fresh ops
    (∀ it, op.written s = some (key, it) →
      ∃ evicted,
        ShortestPrefix
          (fun gone => Shard.Roomy maxEntries maxMemory
            (Shard.without (s.items.insert key it) gone))
          ((s.recency (uses fresh ops)).filter (· ≠ key)) evicted ∧
        (run s op).items = Shard.without (s.items.insert key it) evicted ∧
        (run s op).items.lookup key = some it ∧
        (op ≠ .applySet key it.value it.expireAt →
          op.emitted s = .set key it.value it.expireAt :: evicted.map .del)) ∧
      (op.written s = none → run s op = s ∧ op.emitted s = []) := by
  intro fresh s
  have hfresh : fresh.Exact := Shard.exact_new rng .lru maxEntries maxMemory
  have hexact : s.Exact := hfresh.runAll ops
  have hconfigured : s.Configured .lru maxEntries maxMemory :=
    (Shard.configured_new rng .lru maxEntries maxMemory).runAll ops
  have horder : s.InOrder (uses fresh ops) :=
    inOrder_runAll hfresh (Shard.InOrder.new rng maxEntries maxMemory) ops
  constructor
  · intro it hwritten
    obtain ⟨evicted, hshortest, hitems, hemitted, _⟩ :=
      evicts_of_written hexact horder hwritten
    rw [hconfigured.maxEntries_eq, hconfigured.maxMemory_eq] at hshortest
    refine ⟨evicted, hshortest, hitems, ?_, hemitted⟩
    have hkey : key ∉ evicted := by
      intro hmem
      simpa using hshortest.part.subset hmem
    rw [hitems, Shard.lookup_without hkey, AList.lookup_insert]
  · intro hwritten
    cases op with
    | incrBy other delta now =>
        cases hbase : s.counterBase other now with
        | none => simp [run, emitted, Shard.incrBy, hbase]
        | some base => simp [written, Shard.incrBy, hbase] at hwritten
    | set other value expireAt => cases hwritten
    | applySet other value expireAt => cases hwritten
    | _ => cases hwrites

/-- Room for two keys: the one that was read stays, the other one goes. -/
theorem lru_evicts_least_recent_readKey :
    let s := runAll (Shard.new (Eviction.new (fun _ => 0) .lru) 2 0)
      [.set [97] [1] 0, .set [98] [2] 0, .get [97] 5]
    (run s (.set [99] [3] 0)).items.lookup [99] = some ⟨[3], 0⟩ ∧
      (ShardOp.set [99] [3] 0).emitted s = [.set [99] [3] 0, .del [98]] := by
  intro s
  obtain ⟨evicted, _, _, hlookup, _⟩ := (lru_evicts_least_recent (fun _ => 0) 2 0
    [.set [97] [1] 0, .set [98] [2] 0, .get [97] 5] (.set [99] [3] 0) [99] rfl).1
      ⟨[3], 0⟩ rfl
  exact ⟨hlookup, by decide +kernel⟩

end ShardOp
end DistCache
