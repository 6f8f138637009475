import DistCache.RingWalk

/-!
# The cluster registry

The registry keeps what is known of each node next to a hash ring of their
names, and asks the ring for the owner and the replicas of a key.  The table and
the ring always have the same members.  The ring finds the members that have a
point, so that the registry names as many replicas as it should exactly if
enough members have one.  They all do when no two of them ever stand at the same
point.
-/

namespace DistCache
namespace Cluster

open HashRing

structure Node where
  id : Bytes
  addr : Bytes
  lastSeen : ℤ
  alive : Bool
  self : Bool
  deriving DecidableEq

structure NodeState where
  id : Bytes
  addr : Bytes
  lastSeen : ℤ

structure Config where
  selfID : Bytes
  selfAddr : Bytes
  replicationFactor : ℤ
  failAfter : ℤ
  vnodes : ℤ

structure Registry where
  selfID : Bytes
  selfAddr : Bytes
  rf : ℤ
  failAfter : ℤ
  nodes : AList (fun _ : Bytes => NodeState)
  ring : Ring
  rf_pos : 1 ≤ rf
  inStep : ∀ id, id ∈ ring.nodes ↔ id ∈ nodes
  sound : ring.Sound ring.replicas

namespace Registry

def addLocked (r : Registry) (id addr : Bytes) (now : ℤ) : Registry :=
  { r with
    nodes := r.nodes.insert id ⟨id, addr, now⟩
    ring := if id ∈ r.nodes then r.ring else r.ring.add [id]
    inStep := by
      intro other
      split_ifs with hmem
      · rw [r.inStep, AList.mem_insert]
        constructor
        · exact Or.inr
        · rintro (rfl | hother)
          · exact hmem
          · exact hother
      · rw [Ring.nodes_add, Finset.mem_union, r.inStep, AList.mem_insert]
        simp [or_comm]
    sound := by
      split_ifs
      · exact r.sound
      · exact Ring.sound_add r.sound [id] }

def new (cfg : Config) (now : ℤ) : Registry :=
  addLocked
    { selfID := cfg.selfID
      selfAddr := cfg.selfAddr
      rf := if cfg.replicationFactor < 1 then 1 else cfg.replicationFactor
      failAfter := cfg.failAfter
      nodes := ∅
      ring := Ring.new cfg.vnodes
      rf_pos := by split_ifs <;> omega
      inStep := fun id => by simp [Ring.new]
      sound := Ring.sound_new cfg.vnodes }
    cfg.selfID cfg.selfAddr now

def add (r : Registry) (id addr : Bytes) (now : ℤ) : Registry := r.addLocked id addr now

def remove (r : Registry) (id : Bytes) : Registry :=
  if id ∈ r.nodes then
    { r with
      nodes := r.nodes.erase id
      ring := r.ring.remove id
      inStep := by
        intro other
        rw [Ring.nodes_remove, Finset.mem_erase, r.inStep, AList.mem_erase]
      sound := by
        rw [Ring.replicas_remove]
        exact Ring.sound_remove r.sound id }
  else r

def heartbeat (r : Registry) (id : Bytes) (now : ℤ) : Registry :=
  match hlookup : r.nodes.lookup id with
  | none => r
  | some n =>
      { r with
        nodes := r.nodes.insert id { n with lastSeen := now }
        inStep := by
          intro other
          have hmem : id ∈ r.nodes := by
            rw [← AList.lookup_isSome, hlookup]
            rfl
          rw [r.inStep, AList.mem_insert]
          constructor
          · exact Or.inr
          · rintro (rfl | hother)
            · exact hmem
            · exact hother }

/-- A difference of times is cut off at the bounds of a duration. -/
def sub (later earlier : ℤ) : ℤ := max (-2 ^ 63) (min (2 ^ 63 - 1) (later - earlier))

def alive (r : Registry) (n : NodeState) (now : ℤ) : Bool :=
  if r.failAfter ≤ 0 ∨ n.id = r.selfID then true else sub now n.lastSeen ≤ r.failAfter

/-- The zero value of a time, in nanoseconds from the epoch. -/
def zeroTime : ℤ := -62135596800000000000

def nodeView (r : Registry) (now : ℤ) (id : Bytes) : Node :=
  match r.nodes.lookup id with
  | none => ⟨id, [], zeroTime, false, false⟩
  | some n => ⟨n.id, n.addr, n.lastSeen, r.alive n now, n.id = r.selfID⟩

def owner (r : Registry) (now : ℤ) (key : Bytes) : Option Node :=
  (r.ring.get key).map (r.nodeView now)

/-- Every view reads the clock: `clock i` is the reading for the replica `i`. -/
def replicas (r : Registry) (clock : ℕ → ℤ) (key : Bytes) : List Node :=
  (r.ring.getN key r.rf).zipIdx.map fun entry => r.nodeView (clock entry.2) entry.1

def size (r : Registry) : ℕ := r.nodes.keys.length

end Registry

inductive Call where
  | add (id addr : Bytes) (now : ℤ)
  | remove (id : Bytes)
  | heartbeat (id : Bytes) (now : ℤ)

def Registry.apply (r : Registry) : Call → Registry
  | .add id addr now => r.add id addr now
  | .remove id => r.remove id
  | .heartbeat id now => r.heartbeat id now

def Registry.applyAll (r : Registry) (calls : List Call) : Registry := calls.foldl apply r

namespace Registry

variable {r : Registry}

/-! ## The table and the ring -/

theorem size_eq_card (r : Registry) : r.size = r.ring.nodes.card := by
  have hkeys : r.nodes.keys.toFinset = r.ring.nodes := by
    ext id
    rw [List.mem_toFinset, ← AList.mem_keys, r.inStep]
  rw [size, ← hkeys, List.toFinset_card_of_nodup r.nodes.keys_nodup]

def Named (r : Registry) : Prop := ∀ id n, r.nodes.lookup id = some n → n.id = id

theorem named_insert {nodes : AList (fun _ : Bytes => NodeState)} {id : Bytes} {n : NodeState}
    (hnamed : ∀ id n, nodes.lookup id = some n → n.id = id) (hn : n.id = id) :
    ∀ other m, (nodes.insert id n).lookup other = some m → m.id = other := by
  intro other m hlookup
  by_cases hother : other = id
  · rw [hother, AList.lookup_insert] at hlookup
    rw [← Option.some.inj hlookup, hn, hother]
  · rw [AList.lookup_insert_ne hother] at hlookup
    exact hnamed other m hlookup

theorem Named.apply (hnamed : r.Named) (call : Call) : (r.apply call).Named := by
  cases call with
  | add id addr now => exact named_insert hnamed rfl
  | remove id =>
      simp only [Registry.apply, remove]
      split_ifs
      · intro other m hlookup
        by_cases hother : other = id
        · rw [hother, AList.lookup_erase] at hlookup
          contradiction
        · rw [AList.lookup_erase_ne hother] at hlookup
          exact hnamed other m hlookup
      · exact hnamed
  | heartbeat id now =>
      simp only [Registry.apply, heartbeat]
      split
      · exact hnamed
      · next n hlookup => exact named_insert hnamed (hnamed id n hlookup)

theorem named_applyAll (hnamed : r.Named) (calls : List Call) : (r.applyAll calls).Named := by
  induction calls generalizing r with
  | nil => exact hnamed
  | cons call rest ih => exact ih (hnamed.apply call)

theorem named_new (cfg : Config) (now : ℤ) : (new cfg now).Named :=
  named_insert (fun id n hlookup => by simp at hlookup) rfl

theorem id_nodeView (hnamed : r.Named) (now : ℤ) (id : Bytes) : (r.nodeView now id).id = id := by
  unfold nodeView
  cases hlookup : r.nodes.lookup id with
  | none => rfl
  | some n => exact hnamed id n hlookup

/-! ## The replicas of a key -/

theorem ids_replicas (hnamed : r.Named) (clock : ℕ → ℤ) (key : Bytes) :
    (r.replicas clock key).map Node.id = r.ring.getN key r.rf := by
  rw [replicas, List.map_map]
  have hids : (Node.id ∘ fun entry : Bytes × ℕ => r.nodeView (clock entry.2) entry.1) =
      Prod.fst := by
    funext entry
    exact id_nodeView hnamed _ _
  rw [hids, List.zipIdx_map_fst]

theorem head_replicas (clock : ℕ → ℤ) (key : Bytes) :
    (r.replicas clock key).head? = (r.ring.getN key r.rf).head?.map (r.nodeView (clock 0)) := by
  unfold replicas
  cases r.ring.getN key r.rf with
  | nil => rfl
  | cons id rest => rfl

/-- The owner is found, the replicas are as many different registered nodes as
there should be, and the first of them is the owner. -/
structure NamesReplicas (r : Registry) (clock : ℕ → ℤ) (key : Bytes) : Prop where
  owner : ∃ node, r.owner (clock 0) key = some node
  length : (r.replicas clock key).length = min r.rf.toNat r.size
  distinct : ((r.replicas clock key).map Node.id).Nodup
  registered : ∀ node ∈ r.replicas clock key, node.id ∈ r.nodes
  first : (r.replicas clock key).head? = r.owner (clock 0) key

theorem length_replicas (r : Registry) (clock : ℕ → ℤ) (key : Bytes) :
    (r.replicas clock key).length = min r.rf.toNat r.ring.owning.card := by
  have hlength : (r.replicas clock key).length = (r.ring.getN key r.rf).length := by
    simp [replicas]
  rw [hlength]
  by_cases hnil : r.ring.ring = []
  · rw [Ring.getN_of_nil hnil, Ring.owning_of_nil hnil]
    simp
  · exact (Ring.getN_complete r.sound hnil r.rf_pos key).2.2.1

theorem owning_card_le (r : Registry) : r.ring.owning.card ≤ r.size := by
  rw [size_eq_card]
  exact Finset.card_le_card (Finset.filter_subset _ _)

theorem namesReplicas_of_owning (hnamed : r.Named) (hsize : 1 ≤ r.size)
    (henough : min r.rf.toNat r.size ≤ r.ring.owning.card) (clock : ℕ → ℤ) (key : Bytes) :
    r.NamesReplicas clock key := by
  have hrf := r.rf_pos
  have hne : r.ring.ring ≠ [] := by
    intro hnil
    rw [Ring.owning_of_nil hnil, Finset.card_empty] at henough
    omega
  obtain ⟨hnodup, hmembers, _, hhead⟩ := Ring.getN_complete r.sound hne hrf key
  obtain ⟨_, id, _, _, hget⟩ := Ring.get_of_sound r.sound hne key
  have hids := ids_replicas hnamed clock key
  constructor
  · exact ⟨r.nodeView (clock 0) id, by rw [owner, hget]; rfl⟩
  · have hle := r.owning_card_le
    rw [length_replicas]
    omega
  · rw [hids]
    exact hnodup
  · intro node hnode
    rw [← r.inStep]
    apply hmembers
    rw [← hids]
    exact List.mem_map_of_mem hnode
  · rw [head_replicas, hhead, owner]

/-! ## Histories -/

theorem applyAll_snoc (r : Registry) (calls : List Call) (call : Call) :
    r.applyAll (calls ++ [call]) = (r.applyAll calls).apply call := by
  simp [applyAll]

theorem ring_addLocked {id : Bytes} (hnew : id ∉ r.nodes) (addr : Bytes) (now : ℤ) :
    (r.addLocked id addr now).ring = r.ring.add [id] := if_neg hnew

theorem ring_new (cfg : Config) (now : ℤ) :
    (new cfg now).ring = (Ring.new cfg.vnodes).add [cfg.selfID] :=
  ring_addLocked (AList.notMem_empty _) cfg.selfAddr now

theorem ring_apply (r : Registry) (call : Call) :
    (r.apply call).ring = r.ring ∨ (∃ id, (r.apply call).ring = r.ring.add [id]) ∨
      ∃ id, (r.apply call).ring = r.ring.remove id := by
  cases call with
  | add id addr now =>
      simp only [Registry.apply, add, addLocked]
      split_ifs
      · exact Or.inl rfl
      · exact Or.inr (Or.inl ⟨id, rfl⟩)
  | remove id =>
      simp only [Registry.apply, remove]
      split_ifs
      · exact Or.inr (Or.inr ⟨id, rfl⟩)
      · exact Or.inl rfl
  | heartbeat id now =>
      simp only [Registry.apply, heartbeat]
      split <;> exact Or.inl rfl

def Separate (r : Registry) : Prop := Table.Separate r.ring.replicas r.ring.nodes

instance (r : Registry) : Decidable r.Separate :=
  inferInstanceAs (Decidable (Table.Separate _ _))

theorem faithful_apply (hfaithful : r.ring.Faithful r.ring.replicas) (hseparate : r.Separate)
    {call : Call} (hafter : (r.apply call).Separate) :
    (r.apply call).ring.Faithful (r.apply call).ring.replicas := by
  unfold Separate at hafter
  rcases ring_apply r call with hsame | ⟨id, hadd⟩ | ⟨id, hremove⟩
  · rw [hsame]
    exact hfaithful
  · rw [hadd] at hafter ⊢
    exact Ring.faithful_add hfaithful [id] hafter
  · rw [hremove, Ring.replicas_remove]
    exact Ring.faithful_remove hfaithful id hseparate

theorem faithful_new (cfg : Config) (now : ℤ) :
    (new cfg now).ring.Faithful (new cfg now).ring.replicas := by
  rw [ring_new]
  apply Ring.faithful_add (Ring.faithful_new cfg.vnodes)
  rw [Ring.nodes_add]
  intro a ha b hb hne
  simp only [Ring.new, List.toFinset_cons, List.toFinset_nil, Finset.empty_union,
    insert_empty_eq, Finset.mem_singleton] at ha hb
  exact absurd (ha.trans hb.symm) hne

theorem faithful_applyAll (cfg : Config) (now : ℤ) (calls : List Call)
    (hseparate : ∀ before, before <+: calls → ((new cfg now).applyAll before).Separate) :
    ((new cfg now).applyAll calls).ring.Faithful
      ((new cfg now).applyAll calls).ring.replicas := by
  induction calls using List.reverseRecOn with
  | nil => exact faithful_new cfg now
  | append_singleton calls call ih =>
      have hfirst : calls <+: calls ++ [call] := List.prefix_append calls [call]
      have hall := hseparate (calls ++ [call]) List.prefix_rfl
      have hcalls := ih fun before hbefore => hseparate before (hbefore.trans hfirst)
      rw [applyAll_snoc] at hall ⊢
      exact faithful_apply hcalls (hseparate calls hfirst) hall

/-- With a node registered, the registry names the owner and the replicas of a
key exactly if as many registered nodes as it has to name have a point; they
all have one if no two of them ever stood at the same point. -/
theorem namesReplicas_iff_owning (cfg : Config) (now : ℤ) (calls : List Call) (clock : ℕ → ℤ)
    (key : Bytes) :
    let r := (new cfg now).applyAll calls
    1 ≤ r.size →
      (r.NamesReplicas clock key ↔ min r.rf.toNat r.size ≤ r.ring.owning.card) ∧
        ((∀ before, before <+: calls → ((new cfg now).applyAll before).Separate) →
          r.NamesReplicas clock key) := by
  intro r hsize
  have hnamed : r.Named := named_applyAll (named_new cfg now) calls
  refine ⟨⟨?_, ?_⟩, ?_⟩
  · intro hnames
    have hlength := hnames.length
    rw [length_replicas] at hlength
    omega
  · intro henough
    exact namesReplicas_of_owning hnamed hsize henough clock key
  · intro hseparate
    have hfaithful : r.ring.Faithful r.ring.replicas := faithful_applyAll cfg now calls hseparate
    apply namesReplicas_of_owning hnamed hsize
    rw [Ring.owning_of_faithful r.sound hfaithful, ← size_eq_card]
    exact min_le_right _ _

/-- Three nodes at points of their own. -/
theorem namesReplicas_iff_owning_threeNodes :
    ((new ⟨[97], [], 2, 0, 1⟩ 0).applyAll [.add [98] [] 1, .add [99] [] 2]).NamesReplicas
      (fun _ => 3) [107] := by
  have hseparate : ∀ before ∈ List.inits [.add [98] [] 1, .add [99] [] 2],
      ((new ⟨[97], [], 2, 0, 1⟩ 0).applyAll before).Separate := by decide +kernel
  apply (namesReplicas_iff_owning ⟨[97], [], 2, 0, 1⟩ 0 [.add [98] [] 1, .add [99] [] 2]
    (fun _ => 3) [107] (by decide +kernel)).2
  intro before hbefore
  exact hseparate before ((List.mem_inits before _).mpr hbefore)

/-- Two nodes whose names have the same checksum, with the default number of
virtual nodes: only one replica is named instead of two, and after its removal
the other one is registered and owns nothing. -/
theorem same_checksum_replica_missing :
    let a : Bytes := [97, 56, 98, 53, 52, 99, 50, 53]
    let b : Bytes := [53, 53, 54, 50, 97, 101, 54, 57]
    let r := (new ⟨a, [], 2, 0, 0⟩ 0).applyAll [.add b [] 0]
    (r.rf = 2 ∧ r.size = 2 ∧ ∀ clock key, (r.replicas clock key).length = 1) ∧
      (r.remove b).size = 1 ∧ ∀ now key, (r.remove b).owner now key = none := by
  intro a b r
  have heq : hashKey a = hashKey b := by decide +kernel
  have hne : a ≠ b := by decide
  have hnew : b ∉ (new ⟨a, [], 2, 0, 0⟩ 0).nodes := by
    rw [← Registry.inStep, ring_new, Ring.nodes_add]
    decide
  have hring : r.ring = ((Ring.new 0).add [a]).add [b] := by
    rw [← ring_new ⟨a, [], 2, 0, 0⟩ 0]
    exact ring_addLocked hnew [] 0
  have hmember : b ∈ r.nodes := by
    rw [← r.inStep, hring, Ring.nodes_add]
    simp
  have hremoved : (r.remove b).ring = (((Ring.new 0).add [a]).add [b]).remove b := by
    rw [← hring, remove, if_pos hmember]
  have hsize : r.size = 2 := by
    rw [size_eq_card, hring, Ring.nodes_add, Ring.nodes_add]
    decide
  have hrest : (r.remove b).size = 1 := by
    rw [size_eq_card, hremoved, Ring.nodes_remove, Ring.nodes_add, Ring.nodes_add]
    decide
  refine ⟨⟨rfl, hsize, ?_⟩, hrest, ?_⟩
  · intro clock key
    rw [length_replicas, hring, Ring.owning_of_same_points 0 heq hne]
    rfl
  · intro now key
    rw [owner, hremoved, Ring.get_remove_of_same_points 0 heq hne]
    rfl

end Registry
end Cluster
end DistCache
