import DistCache.CacheShard
import DistCache.Crc32
import DistCache.CircularSearch

/-!
# The hash ring

A node stands on the ring at the checksums of its labels, and a key belongs to the node
at the next point.  The ring keeps the points in a sorted list and the node of each
point in a table.  The table has one node for a point, the list has the point once for
every node that stands there, and `Remove` takes it away from all of them.

As long as no two members share a point, the owner of a key depends only on the
members.
-/

namespace DistCache
namespace HashRing

open CircularSearch

/-! ## The ring -/

def hashKey (s : Bytes) : ℕ := Crc32.checksum s

def vnodeKey (node : Bytes) (i : ℕ) : Bytes := node ++ [35] ++ formatNat i

def points (replicas : ℕ) (node : Bytes) : List ℕ :=
  (List.range replicas).map fun i => hashKey (vnodeKey node i)

structure Table where
  ring : List ℕ
  owners : AList (fun _ : ℕ => Bytes)
  nodes : Finset Bytes

structure Ring extends Table where
  replicas : ℕ
  pos : 0 < replicas
  sorted : ring.Pairwise (· ≤ ·)

namespace Table

def addPoint (node : Bytes) (t : Table) (h : ℕ) : Table :=
  { t with owners := t.owners.insert h node, ring := t.ring ++ [h] }

def addNode (replicas : ℕ) (t : Table) (node : Bytes) : Table :=
  if node ∈ t.nodes then t
  else (points replicas node).foldl (addPoint node) { t with nodes := insert node t.nodes }

end Table

namespace Ring

def new (replicas : ℤ) : Ring where
  ring := []
  owners := ∅
  nodes := ∅
  replicas := if replicas ≤ 0 then 100 else replicas.toNat
  pos := by
    split_ifs
    · exact Nat.succ_pos 99
    · omega
  sorted := .nil

def add (r : Ring) (nodes : List Bytes) : Ring :=
  let t := nodes.foldl (Table.addNode r.replicas) r.toTable
  { r with
    ring := t.ring.insertionSort (· ≤ ·)
    owners := t.owners
    nodes := t.nodes
    sorted := List.pairwise_insertionSort _ _ }

def remove (r : Ring) (node : Bytes) : Ring :=
  if node ∈ r.nodes then
    let owners := (points r.replicas node).foldl (fun owners h => owners.erase h) r.owners
    { r with
      nodes := r.nodes.erase node
      owners := owners
      ring := r.ring.filter fun h => h ∈ owners
      sorted := r.sorted.filter _ }
  else r

def search (r : Ring) (h : ℕ) : ℕ := index r.ring h

def ownerAt (r : Ring) (i : ℕ) : Bytes := (r.ring[i]?.bind r.owners.lookup).getD []

def get (r : Ring) (key : Bytes) : Option Bytes :=
  if r.ring = [] then none else some (r.ownerAt (r.search (hashKey key)))

end Ring

inductive RingOp where
  | add (nodes : List Bytes)
  | remove (node : Bytes)
  deriving DecidableEq

def Ring.apply (r : Ring) : RingOp → Ring
  | .add nodes => r.add nodes
  | .remove node => r.remove node

def Ring.applyAll (r : Ring) (ops : List RingOp) : Ring := ops.foldl Ring.apply r

/-! ## The table after an update -/

namespace Table

variable {t : Table} {replicas : ℕ} {node : Bytes} {h : ℕ}

theorem foldl_addPoint (t : Table) (node : Bytes) (hs : List ℕ) :
    (hs.foldl (addPoint node) t).ring = t.ring ++ hs ∧
      (hs.foldl (addPoint node) t).nodes = t.nodes ∧
      ∀ h, (hs.foldl (addPoint node) t).owners.lookup h =
        if h ∈ hs then some node else t.owners.lookup h := by
  induction hs generalizing t with
  | nil => simp
  | cons first rest ih =>
      obtain ⟨hring, hnodes, howners⟩ := ih (addPoint node t first)
      rw [List.foldl_cons]
      refine ⟨?_, hnodes, ?_⟩
      · rw [hring, addPoint, List.append_assoc]
        rfl
      · intro h
        rw [howners]
        by_cases hrest : h ∈ rest
        · simp [hrest]
        · by_cases hfirst : h = first
          · subst hfirst
            simp [hrest, addPoint]
          · simp [hrest, hfirst, addPoint, AList.lookup_insert_ne hfirst]

theorem nodes_addNode : (t.addNode replicas node).nodes = insert node t.nodes := by
  unfold addNode
  split_ifs with hmem
  · exact (Finset.insert_eq_of_mem hmem).symm
  · exact (foldl_addPoint _ node _).2.1

theorem mem_ring_addNode :
    h ∈ (t.addNode replicas node).ring ↔
      h ∈ t.ring ∨ node ∉ t.nodes ∧ h ∈ points replicas node := by
  unfold addNode
  split_ifs with hmem
  · simp [hmem]
  · rw [(foldl_addPoint _ node _).1, List.mem_append]
    simp [hmem]

theorem lookup_addNode :
    (t.addNode replicas node).owners.lookup h =
      if node ∉ t.nodes ∧ h ∈ points replicas node then some node else t.owners.lookup h := by
  unfold addNode
  split_ifs with hmem hnew hnew
  · exact absurd hmem hnew.1
  · rfl
  · rw [(foldl_addPoint _ node _).2.2, if_pos hnew.2]
  · rw [(foldl_addPoint _ node _).2.2, if_neg]
    exact fun hpoint => hnew ⟨hmem, hpoint⟩

structure Sound (replicas : ℕ) (t : Table) : Prop where
  owned : ∀ h, h ∈ t.ring ↔ h ∈ t.owners
  member : ∀ h node, t.owners.lookup h = some node → node ∈ t.nodes ∧ h ∈ points replicas node

def Faithful (replicas : ℕ) (t : Table) : Prop :=
  ∀ node ∈ t.nodes, ∀ h ∈ points replicas node, t.owners.lookup h = some node

/-- No two members stand at the same point. -/
def Separate (replicas : ℕ) (nodes : Finset Bytes) : Prop :=
  ∀ a ∈ nodes, ∀ b ∈ nodes, a ≠ b → ∀ h ∈ points replicas a, h ∉ points replicas b

instance (replicas : ℕ) (nodes : Finset Bytes) : Decidable (Separate replicas nodes) :=
  inferInstanceAs (Decidable (∀ a ∈ nodes, ∀ b ∈ nodes, a ≠ b → ∀ h ∈ _, h ∉ _))

theorem Separate.subset {nodes fewer : Finset Bytes} (hseparate : Separate replicas nodes)
    (hsubset : fewer ⊆ nodes) : Separate replicas fewer :=
  fun a ha b hb => hseparate a (hsubset ha) b (hsubset hb)

theorem Sound.addNode (hsound : t.Sound replicas) (node : Bytes) :
    (t.addNode replicas node).Sound replicas := by
  constructor
  · intro h
    rw [mem_ring_addNode, hsound.owned, ← AList.lookup_isSome, ← AList.lookup_isSome,
      lookup_addNode]
    split_ifs with hnew <;> simp [hnew]
  · intro h other hlookup
    rw [lookup_addNode] at hlookup
    rw [nodes_addNode, Finset.mem_insert]
    split_ifs at hlookup with hnew
    · rw [← Option.some.inj hlookup]
      exact ⟨Or.inl rfl, hnew.2⟩
    · obtain ⟨hmember, hpoint⟩ := hsound.member h other hlookup
      exact ⟨Or.inr hmember, hpoint⟩

theorem Faithful.addNode (hfaithful : t.Faithful replicas)
    (hseparate : Separate replicas (insert node t.nodes)) :
    (t.addNode replicas node).Faithful replicas := by
  intro other hother h hpoint
  rw [nodes_addNode] at hother
  rw [lookup_addNode]
  by_cases hnew : node ∈ t.nodes
  · rw [if_neg fun hcond => hcond.1 hnew]
    rw [Finset.insert_eq_of_mem hnew] at hother
    exact hfaithful other hother h hpoint
  · by_cases heq : other = node
    · rw [heq] at hpoint ⊢
      exact if_pos ⟨hnew, hpoint⟩
    · have hnot := hseparate other hother node (Finset.mem_insert_self node _) heq h hpoint
      rw [if_neg fun hcond => hnot hcond.2]
      exact hfaithful other (Finset.mem_of_mem_insert_of_ne hother heq) h hpoint

theorem foldl_addNode (t : Table) (added : List Bytes) :
    (added.foldl (addNode replicas) t).nodes = t.nodes ∪ added.toFinset ∧
      (t.Sound replicas → (added.foldl (addNode replicas) t).Sound replicas) ∧
      (t.Faithful replicas → Separate replicas (t.nodes ∪ added.toFinset) →
        (added.foldl (addNode replicas) t).Faithful replicas) := by
  induction added generalizing t with
  | nil => exact ⟨by simp, id, fun hs _ => hs⟩
  | cons first rest ih =>
      obtain ⟨hnodes, hsound, hfaithful⟩ := ih (t.addNode replicas first)
      have hunion : insert first t.nodes ∪ rest.toFinset =
          t.nodes ∪ (first :: rest).toFinset := by
        rw [List.toFinset_cons, Finset.insert_union, Finset.union_insert]
      rw [nodes_addNode, hunion] at hnodes hfaithful
      refine ⟨hnodes, fun hs => hsound (hs.addNode first), ?_⟩
      intro hs hseparate
      apply hfaithful _ hseparate
      apply hs.addNode
      apply hseparate.subset
      rw [← hunion]
      exact Finset.subset_union_left

end Table

theorem lookup_foldl_erase (owners : AList (fun _ : ℕ => Bytes)) (hs : List ℕ) (h : ℕ) :
    (hs.foldl (fun owners h => owners.erase h) owners).lookup h =
      if h ∈ hs then none else owners.lookup h := by
  induction hs generalizing owners with
  | nil => simp
  | cons first rest ih =>
      rw [List.foldl_cons, ih]
      by_cases hrest : h ∈ rest
      · simp [hrest]
      · by_cases hfirst : h = first
        · subst hfirst
          simp [hrest]
        · simp [hrest, hfirst, AList.lookup_erase_ne hfirst]

namespace Ring

open Table

variable {r : Ring} {node : Bytes} {h : ℕ}

@[simp] theorem replicas_remove (r : Ring) (node : Bytes) :
    (r.remove node).replicas = r.replicas := by
  unfold remove
  split_ifs <;> rfl

theorem nodes_add (r : Ring) (added : List Bytes) :
    (r.add added).nodes = r.nodes ∪ added.toFinset :=
  (foldl_addNode r.toTable added).1

theorem mem_ring_add (r : Ring) (added : List Bytes) :
    h ∈ (r.add added).ring ↔ h ∈ (added.foldl (addNode r.replicas) r.toTable).ring :=
  List.mem_insertionSort _

theorem nodes_remove (r : Ring) (node : Bytes) : (r.remove node).nodes = r.nodes.erase node := by
  unfold remove
  split_ifs with hmem
  · rfl
  · exact (Finset.erase_eq_of_notMem hmem).symm

theorem lookup_remove (hmem : node ∈ r.nodes) :
    (r.remove node).owners.lookup h =
      if h ∈ points r.replicas node then none else r.owners.lookup h := by
  unfold remove
  rw [if_pos hmem]
  exact lookup_foldl_erase r.owners _ h

theorem mem_ring_remove (hmem : node ∈ r.nodes) :
    h ∈ (r.remove node).ring ↔ h ∈ r.ring ∧ h ∈ (r.remove node).owners := by
  unfold remove
  rw [if_pos hmem]
  simp

theorem sound_new (replicas : ℤ) : (new replicas).toTable.Sound (new replicas).replicas := by
  constructor
  · intro h
    simp [new]
  · intro h node hlookup
    simp [new] at hlookup

theorem sound_add (hsound : r.Sound r.replicas) (added : List Bytes) :
    (r.add added).Sound r.replicas := by
  have hadded : (added.foldl (addNode r.replicas) r.toTable).Sound r.replicas :=
    (foldl_addNode r.toTable added).2.1 hsound
  refine ⟨?_, hadded.member⟩
  intro h
  rw [mem_ring_add, hadded.owned]
  rfl

theorem sound_remove (hsound : r.Sound r.replicas) (node : Bytes) :
    (r.remove node).Sound r.replicas := by
  by_cases hmem : node ∈ r.nodes
  · constructor
    · intro h
      rw [mem_ring_remove hmem, hsound.owned]
      constructor
      · exact And.right
      · intro hstill
        refine ⟨?_, hstill⟩
        rw [← AList.lookup_isSome, lookup_remove hmem] at hstill
        rw [← AList.lookup_isSome]
        split_ifs at hstill with hpoint
        · contradiction
        · exact hstill
    · intro h other hlookup
      rw [lookup_remove hmem] at hlookup
      split_ifs at hlookup with hpoint
      obtain ⟨hmember, hother⟩ := hsound.member h other hlookup
      refine ⟨?_, hother⟩
      rw [nodes_remove, Finset.mem_erase]
      refine ⟨?_, hmember⟩
      rintro rfl
      exact hpoint hother
  · have hsame : r.remove node = r := if_neg hmem
    rw [hsame]
    exact hsound

theorem faithful_new (replicas : ℤ) : (new replicas).toTable.Faithful (new replicas).replicas := by
  intro node hnode
  exact absurd hnode (Finset.notMem_empty node)

theorem faithful_add (hfaithful : r.Faithful r.replicas) (added : List Bytes)
    (hseparate : Separate r.replicas (r.add added).nodes) :
    (r.add added).Faithful r.replicas := by
  rw [nodes_add] at hseparate
  exact (foldl_addNode r.toTable added).2.2 hfaithful hseparate

theorem faithful_remove (hfaithful : r.Faithful r.replicas) (node : Bytes)
    (hseparate : Separate r.replicas r.nodes) : (r.remove node).Faithful r.replicas := by
  intro other hother h hpoint
  rw [nodes_remove, Finset.mem_erase] at hother
  by_cases hmem : node ∈ r.nodes
  · rw [lookup_remove hmem, if_neg (hseparate other hother.2 node hmem hother.1 h hpoint)]
    exact hfaithful other hother.2 h hpoint
  · have hsame : r.remove node = r := if_neg hmem
    rw [hsame]
    exact hfaithful other hother.2 h hpoint

/-! ## Histories -/

theorem applyAll_snoc (r : Ring) (ops : List RingOp) (op : RingOp) :
    r.applyAll (ops ++ [op]) = (r.applyAll ops).apply op := by
  simp [applyAll]

@[simp] theorem replicas_apply (r : Ring) (op : RingOp) : (r.apply op).replicas = r.replicas := by
  cases op with
  | add nodes => rfl
  | remove node => exact replicas_remove r node

theorem replicas_applyAll (r : Ring) (ops : List RingOp) :
    (r.applyAll ops).replicas = r.replicas := by
  induction ops using List.reverseRecOn with
  | nil => rfl
  | append_singleton ops op ih => rw [applyAll_snoc, replicas_apply, ih]

theorem sound_applyAll (hsound : r.Sound r.replicas) (ops : List RingOp) :
    (r.applyAll ops).Sound r.replicas := by
  induction ops using List.reverseRecOn with
  | nil => exact hsound
  | append_singleton ops op ih =>
      rw [applyAll_snoc]
      rw [← replicas_applyAll r ops] at ih ⊢
      cases op with
      | add nodes => exact sound_add ih nodes
      | remove node => exact sound_remove ih node

theorem faithful_applyAll (hfaithful : r.Faithful r.replicas) (ops : List RingOp)
    (hseparate : ∀ before, before <+: ops → Separate r.replicas (r.applyAll before).nodes) :
    (r.applyAll ops).Faithful r.replicas := by
  induction ops using List.reverseRecOn with
  | nil => exact hfaithful
  | append_singleton ops op ih =>
      have hfirst : ops <+: ops ++ [op] := List.prefix_append ops [op]
      have hall := hseparate (ops ++ [op]) List.prefix_rfl
      have hbefore := hseparate ops hfirst
      have hops := ih fun before hbefore => hseparate before (hbefore.trans hfirst)
      rw [applyAll_snoc] at hall ⊢
      rw [← replicas_applyAll r ops] at hops hall hbefore ⊢
      cases op with
      | add nodes => exact faithful_add hops nodes hall
      | remove node => exact faithful_remove hops node hbefore

/-! ## Owners -/

def circle (replicas : ℕ) (nodes : Finset Bytes) : Set ℕ :=
  {h | ∃ node ∈ nodes, h ∈ points replicas node}

theorem ownerAt_of_sound (hsound : r.Sound r.replicas) {i : ℕ} (hi : i < r.ring.length) :
    r.owners.lookup r.ring[i] = some (r.ownerAt i) := by
  have howned : r.ring[i] ∈ r.owners := (hsound.owned _).mp (List.getElem_mem hi)
  rw [← AList.lookup_isSome] at howned
  obtain ⟨node, hlookup⟩ := Option.isSome_iff_exists.mp howned
  simp [ownerAt, hi, hlookup]

theorem get_of_sound (hsound : r.Sound r.replicas) (hne : r.ring ≠ []) (key : Bytes) :
    ∃ p node, IsNext {h | h ∈ r.ring} (hashKey key) p ∧ r.owners.lookup p = some node ∧
      r.get key = some node := by
  obtain ⟨hlt, hnext⟩ := isNext_index r.sorted hne (hashKey key)
  exact ⟨_, _, hnext, ownerAt_of_sound hsound hlt, if_neg hne⟩

theorem get_eq_of_next (hsound : r.Sound r.replicas) {key : Bytes} {p : ℕ}
    (hnext : IsNext {h | h ∈ r.ring} (hashKey key) p) (hlookup : r.owners.lookup p = some node) :
    r.get key = some node := by
  have hne : r.ring ≠ [] := List.ne_nil_of_mem hnext.1
  obtain ⟨q, other, hq, hother, hget⟩ := get_of_sound hsound hne key
  rw [hnext.unique hq, hother] at hlookup
  rw [hget, hlookup]

theorem ring_eq_circle (hsound : r.Sound r.replicas) (hfaithful : r.Faithful r.replicas) :
    {h | h ∈ r.ring} = circle r.replicas r.nodes := by
  ext h
  rw [Set.mem_ofPred_eq, hsound.owned, ← AList.lookup_isSome]
  constructor
  · intro hsome
    obtain ⟨node, hlookup⟩ := Option.isSome_iff_exists.mp hsome
    obtain ⟨hmember, hpoint⟩ := hsound.member h node hlookup
    exact ⟨node, hmember, hpoint⟩
  · rintro ⟨node, hmember, hpoint⟩
    rw [hfaithful node hmember h hpoint]
    rfl

theorem get_eq_some_iff (hsound : r.Sound r.replicas) (hfaithful : r.Faithful r.replicas)
    (key node : Bytes) :
    r.get key = some node ↔ node ∈ r.nodes ∧
      ∃ p ∈ points r.replicas node, IsNext (circle r.replicas r.nodes) (hashKey key) p := by
  rw [← ring_eq_circle hsound hfaithful]
  constructor
  · intro hget
    have hne : r.ring ≠ [] := by
      intro hnil
      rw [get, if_pos hnil] at hget
      contradiction
    obtain ⟨p, other, hnext, hlookup, hother⟩ := get_of_sound hsound hne key
    rw [hget] at hother
    cases hother
    obtain ⟨hmember, hpoint⟩ := hsound.member p node hlookup
    exact ⟨hmember, p, hpoint, hnext⟩
  · rintro ⟨hmember, p, hpoint, hnext⟩
    exact get_eq_of_next hsound hnext (hfaithful node hmember p hpoint)

theorem points_ne_nil (r : Ring) (node : Bytes) : points r.replicas node ≠ [] := by
  have hpos := r.pos
  simp only [points, ne_eq, List.map_eq_nil_iff, List.range_eq_nil]
  omega

theorem get_of_nonempty (hsound : r.Sound r.replicas) (hfaithful : r.Faithful r.replicas)
    (hnodes : r.nodes.Nonempty) (key : Bytes) : ∃ node ∈ r.nodes, r.get key = some node := by
  obtain ⟨node, hnode⟩ := hnodes
  obtain ⟨h, hpoint⟩ := List.exists_mem_of_ne_nil _ (r.points_ne_nil node)
  have hin : h ∈ r.ring := by
    rw [hsound.owned, ← AList.lookup_isSome, hfaithful node hnode h hpoint]
    rfl
  obtain ⟨p, owner, _, hlookup, hget⟩ := get_of_sound hsound (List.ne_nil_of_mem hin) key
  exact ⟨owner, (hsound.member p owner hlookup).1, hget⟩

theorem get_remove (hsound : r.Sound r.replicas) (hfaithful : r.Faithful r.replicas)
    (hseparate : Separate r.replicas r.nodes) {key owner : Bytes} (hget : r.get key = some owner)
    (hne : owner ≠ node) : (r.remove node).get key = some owner := by
  have hafter : (r.remove node).Faithful r.replicas := faithful_remove hfaithful node hseparate
  have hremoved : (r.remove node).Sound r.replicas := sound_remove hsound node
  rw [← replicas_remove r node] at hafter hremoved
  rw [get_eq_some_iff hsound hfaithful] at hget
  rw [get_eq_some_iff hremoved hafter, replicas_remove, nodes_remove]
  obtain ⟨hmember, p, hpoint, hnext⟩ := hget
  have hstill : owner ∈ r.nodes.erase node := Finset.mem_erase.mpr ⟨hne, hmember⟩
  refine ⟨hstill, p, hpoint, hnext.subset ?_ ⟨owner, hstill, hpoint⟩⟩
  rintro h ⟨other, hother, hh⟩
  exact ⟨other, Finset.mem_of_mem_erase hother, hh⟩

theorem get_eq_get {other : Ring} (hsound : r.Sound r.replicas)
    (hfaithful : r.Faithful r.replicas) (hsound' : other.Sound other.replicas)
    (hfaithful' : other.Faithful other.replicas) (hreplicas : other.replicas = r.replicas)
    (hnodes : other.nodes = r.nodes) (key : Bytes) : r.get key = other.get key := by
  apply Option.ext
  intro node
  rw [get_eq_some_iff hsound hfaithful, get_eq_some_iff hsound' hfaithful', hreplicas, hnodes]

/-! ## The order of the members -/

/-- Every ring on which the members are put in any order, all at once or one
after the other, gives every key to the same node. -/
def OrderFree (replicas : ℤ) (r : Ring) : Prop :=
  ∀ batches : List (List Bytes), batches.flatten.toFinset = r.nodes →
    ∀ key, r.get key = ((new replicas).applyAll (batches.map .add)).get key

theorem nodes_adds (replicas : ℤ) (batches : List (List Bytes)) :
    ((new replicas).applyAll (batches.map .add)).nodes = batches.flatten.toFinset := by
  induction batches using List.reverseRecOn with
  | nil => rfl
  | append_singleton batches batch ih =>
      rw [List.map_append, List.map_singleton, applyAll_snoc, apply, nodes_add, ih,
        List.flatten_append, List.toFinset_append]
      simp

theorem faithful_adds (replicas : ℤ) (batches : List (List Bytes))
    (hseparate : Separate (new replicas).replicas batches.flatten.toFinset) :
    ((new replicas).applyAll (batches.map .add)).Faithful (new replicas).replicas := by
  apply faithful_applyAll (faithful_new replicas)
  intro before hbefore
  obtain ⟨first, hfirst, rfl⟩ := List.prefix_map_iff.mp hbefore
  rw [nodes_adds]
  apply hseparate.subset
  obtain ⟨rest, rfl⟩ := hfirst
  rw [List.flatten_append, List.toFinset_append]
  exact Finset.subset_union_left

theorem orderFree_of_separate {replicas : ℤ} {ops : List RingOp}
    (hseparate : ∀ before, before <+: ops →
      Separate (new replicas).replicas ((new replicas).applyAll before).nodes) :
    OrderFree replicas ((new replicas).applyAll ops) := by
  intro batches hbatches key
  have hall := hseparate ops List.prefix_rfl
  have hsound := sound_applyAll (sound_new replicas) ops
  have hfaithful := faithful_applyAll (faithful_new replicas) ops hseparate
  have hsound' := sound_applyAll (sound_new replicas) (batches.map .add)
  rw [← hbatches] at hall
  have hfaithful' := faithful_adds replicas batches hall
  have hreplicas := replicas_applyAll (new replicas) ops
  have hreplicas' := replicas_applyAll (new replicas) (batches.map .add)
  rw [← hreplicas] at hsound hfaithful
  rw [← hreplicas'] at hsound' hfaithful'
  exact get_eq_get hsound hfaithful hsound' hfaithful' (hreplicas'.trans hreplicas.symm)
    ((nodes_adds replicas batches).trans hbatches) key

theorem lookup_add_last (added : List Bytes) (hnew : node ∉ r.nodes ∪ added.toFinset)
    (hpoint : h ∈ points r.replicas node) :
    (r.add (added ++ [node])).owners.lookup h = some node := by
  have hlast : ((added ++ [node]).foldl (addNode r.replicas) r.toTable).owners.lookup h =
      some node := by
    rw [List.foldl_append, List.foldl_cons, List.foldl_nil, lookup_addNode,
      (foldl_addNode r.toTable added).1]
    exact if_pos ⟨hnew, hpoint⟩
  exact hlast

theorem get_add_last (hsound : r.Sound r.replicas) {added : List Bytes}
    (hnew : node ∉ r.nodes ∪ added.toFinset) {key : Bytes}
    (hpoint : hashKey key ∈ points r.replicas node) :
    (r.add (added ++ [node])).get key = some node := by
  have hlookup := lookup_add_last added hnew hpoint
  have hafter : (r.add (added ++ [node])).Sound r.replicas := sound_add hsound _
  have hin : hashKey key ∈ (r.add (added ++ [node])).ring := by
    rw [hafter.owned, ← AList.lookup_isSome, hlookup]
    rfl
  exact get_eq_of_next hafter (isNext_self hin) hlookup

theorem separate_of_orderFree {replicas : ℤ} (hfree : OrderFree replicas r) :
    Separate (new replicas).replicas r.nodes := by
  intro a ha b hb hne h hpoint hshared
  obtain ⟨i, _, rfl⟩ := List.mem_map.mp hpoint
  let rest := ((r.nodes.erase a).erase b).toList
  have hrest : ∀ node, node ∈ rest ↔ node ≠ b ∧ node ≠ a ∧ node ∈ r.nodes := by
    intro node
    simp [rest]
  have hget : ∀ first second, first ∈ r.nodes → second ∈ r.nodes → first ≠ second →
      (∀ node, node ∈ rest ↔ node ≠ second ∧ node ≠ first ∧ node ∈ r.nodes) →
      hashKey (vnodeKey a i) ∈ points (new replicas).replicas second →
      r.get (vnodeKey a i) = some second := by
    intro first second hfirst hsecond hdiffer hother hin
    have hnodes : [(rest ++ [first]) ++ [second]].flatten.toFinset = r.nodes := by
      ext node
      simp only [List.flatten_cons, List.flatten_nil, List.append_nil, List.mem_toFinset,
        List.mem_append, List.mem_singleton, hother]
      constructor
      · rintro ((hin | rfl) | rfl)
        · exact hin.2.2
        · exact hfirst
        · exact hsecond
      · intro hin
        by_cases hone : node = first
        · exact Or.inl (Or.inr hone)
        · by_cases htwo : node = second
          · exact Or.inr htwo
          · exact Or.inl (Or.inl ⟨htwo, hone, hin⟩)
    rw [hfree _ hnodes]
    apply get_add_last (sound_new replicas) _ hin
    simp only [List.toFinset_append, Finset.mem_union, not_or]
    refine ⟨Finset.notMem_empty second, ?_, ?_⟩
    · rw [List.mem_toFinset, hother]
      exact fun hin => hin.1 rfl
    · rw [List.mem_toFinset, List.mem_singleton]
      exact Ne.symm hdiffer
  have hsecond := hget a b ha hb hne hrest hshared
  have hfirst := hget b a hb ha (Ne.symm hne)
    (fun node => (hrest node).trans and_left_comm) hpoint
  rw [hfirst] at hsecond
  exact hne (Option.some.inj hsecond)

theorem get_remove_add (hsound : r.Sound r.replicas) (hfaithful : r.Faithful r.replicas)
    (hnew : node ∉ r.nodes) (hseparate : Separate r.replicas (r.add [node]).nodes)
    (key : Bytes) : ((r.add [node]).remove node).get key = r.get key := by
  have hadded : (r.add [node]).Faithful r.replicas := faithful_add hfaithful [node] hseparate
  have hsoundAdd : (r.add [node]).Sound r.replicas := sound_add hsound [node]
  have hremoved : ((r.add [node]).remove node).Faithful r.replicas :=
    faithful_remove (r := r.add [node]) hadded node hseparate
  have hsoundRemove : ((r.add [node]).remove node).Sound r.replicas :=
    sound_remove (r := r.add [node]) hsoundAdd node
  have hreplicas : ((r.add [node]).remove node).replicas = r.replicas := replicas_remove _ node
  rw [← hreplicas] at hremoved hsoundRemove
  apply (get_eq_get hsound hfaithful hsoundRemove hremoved hreplicas _ key).symm
  rw [nodes_remove, nodes_add]
  ext other
  simp only [Finset.mem_erase, Finset.mem_union, List.mem_toFinset, List.mem_singleton]
  constructor
  · rintro ⟨hne, hin | heq⟩
    · exact hin
    · exact absurd heq hne
  · intro hin
    refine ⟨?_, Or.inl hin⟩
    rintro rfl
    exact hnew hin

/-- Throughout a history the owners depend only on the members exactly if no two
members ever stand at the same point.  Then a ring with a member has an owner
for every key, a removal moves only the keys of the removed node, and it undoes
an addition. -/
theorem orderFree_iff_separate (replicas : ℤ) (ops : List RingOp) :
    ((∀ before, before <+: ops → OrderFree replicas ((new replicas).applyAll before)) ↔
        ∀ before, before <+: ops →
          Separate (new replicas).replicas ((new replicas).applyAll before).nodes) ∧
      ((∀ before, before <+: ops →
          Separate (new replicas).replicas ((new replicas).applyAll before).nodes) →
        let r := (new replicas).applyAll ops
        (r.nodes.Nonempty → ∀ key, ∃ node ∈ r.nodes, r.get key = some node) ∧
          (∀ node key owner, r.get key = some owner → owner ≠ node →
            (r.remove node).get key = some owner) ∧
          ∀ node key, node ∉ r.nodes → Separate r.replicas (r.add [node]).nodes →
            ((r.add [node]).remove node).get key = r.get key) := by
  refine ⟨⟨?_, ?_⟩, ?_⟩
  · intro hfree before hbefore
    exact separate_of_orderFree (hfree before hbefore)
  · intro hseparate before hbefore
    exact orderFree_of_separate fun earlier hearlier =>
      hseparate earlier (hearlier.trans hbefore)
  · intro hseparate r
    have hall := hseparate ops List.prefix_rfl
    have hsound : r.Sound (new replicas).replicas := sound_applyAll (sound_new replicas) ops
    have hfaithful : r.Faithful (new replicas).replicas :=
      faithful_applyAll (faithful_new replicas) ops hseparate
    have hreplicas : r.replicas = (new replicas).replicas := replicas_applyAll (new replicas) ops
    rw [← hreplicas] at hsound hfaithful hall
    exact ⟨get_of_nonempty hsound hfaithful,
      fun node key owner hget hne => get_remove hsound hfaithful hall hget hne,
      fun node key hnew hadded => get_remove_add hsound hfaithful hnew hadded key⟩

theorem orderFree_iff_separate_twoNodes :
    OrderFree 2 ((new 2).applyAll [.add [[97], [98]], .remove [97], .add [[99]]]) := by
  have hseparate : ∀ before ∈ List.inits [.add [[97], [98]], .remove [97], .add [[99]]],
      Separate (new 2).replicas ((new 2).applyAll before).nodes := by decide +kernel
  apply (orderFree_iff_separate 2 [.add [[97], [98]], .remove [97], .add [[99]]]).1.mpr
  · intro before hbefore
    exact hseparate before ((List.mem_inits before _).mpr hbefore)
  · exact List.prefix_rfl

/-! ## Nodes with the same checksum -/

section SameChecksum

variable {a b : Bytes}

theorem points_eq_of_hashKey_eq (heq : hashKey a = hashKey b) (replicas : ℕ) :
    points replicas a = points replicas b := by
  unfold points
  apply List.map_congr_left
  intro i _
  unfold vnodeKey hashKey
  rw [List.append_assoc, List.append_assoc]
  exact Crc32.checksum_append_congr heq _

theorem owner_of_same_points (replicas : ℤ) (heq : hashKey a = hashKey b) (hne : a ≠ b)
    {h : ℕ} {node : Bytes}
    (hlookup : (((new replicas).add [a]).add [b]).owners.lookup h = some node) : node = b := by
  have hsound : (((new replicas).add [a]).add [b]).Sound (new replicas).replicas :=
    sound_add (r := (new replicas).add [a]) (sound_add (sound_new replicas) [a]) [b]
  obtain ⟨hmember, hpoint⟩ := hsound.member h node hlookup
  have hnew : b ∉ ((new replicas).add [a]).nodes ∪ [].toFinset := by
    rw [nodes_add]
    simp [new, Ne.symm hne]
  have hlast : h ∈ points (new replicas).replicas b := by
    rw [nodes_add, nodes_add] at hmember
    have hone : node = a ∨ node = b := by simpa [new] using hmember
    rcases hone with rfl | rfl
    · rw [points_eq_of_hashKey_eq heq] at hpoint
      exact hpoint
    · exact hpoint
  have hb := lookup_add_last [] hnew hlast
  rw [List.nil_append, hlookup] at hb
  exact Option.some.inj hb

theorem get_of_same_points (replicas : ℤ) (heq : hashKey a = hashKey b) (hne : a ≠ b)
    (key : Bytes) : (((new replicas).add [a]).add [b]).get key = some b := by
  have hsound : (((new replicas).add [a]).add [b]).Sound (new replicas).replicas :=
    sound_add (r := (new replicas).add [a]) (sound_add (sound_new replicas) [a]) [b]
  have hpoint : ∃ p, p ∈ (((new replicas).add [a]).add [b]).ring := by
    obtain ⟨p, hp⟩ := List.exists_mem_of_ne_nil _ ((new replicas).points_ne_nil b)
    refine ⟨p, ?_⟩
    rw [mem_ring_add, List.foldl_cons, List.foldl_nil, mem_ring_addNode, nodes_add]
    exact Or.inr ⟨by simp [new, Ne.symm hne], hp⟩
  obtain ⟨p, hp⟩ := hpoint
  obtain ⟨q, node, _, hlookup, hget⟩ := get_of_sound hsound (List.ne_nil_of_mem hp) key
  rw [hget, owner_of_same_points replicas heq hne hlookup]

theorem get_remove_of_same_points (replicas : ℤ) (heq : hashKey a = hashKey b) (hne : a ≠ b)
    (key : Bytes) : ((((new replicas).add [a]).add [b]).remove b).get key = none := by
  have hsound : (((new replicas).add [a]).add [b]).Sound (new replicas).replicas :=
    sound_add (r := (new replicas).add [a]) (sound_add (sound_new replicas) [a]) [b]
  have hmember : b ∈ (((new replicas).add [a]).add [b]).nodes := by
    rw [nodes_add]
    simp
  apply if_pos
  rw [List.eq_nil_iff_forall_not_mem]
  intro h hin
  rw [mem_ring_remove hmember, ← AList.lookup_isSome, lookup_remove hmember] at hin
  obtain ⟨_, hstill⟩ := hin
  split_ifs at hstill with hpoint
  · contradiction
  · obtain ⟨node, hlookup⟩ := Option.isSome_iff_exists.mp hstill
    have hnode := owner_of_same_points replicas heq hne hlookup
    rw [hnode] at hlookup
    exact hpoint (hsound.member h b hlookup).2

end SameChecksum

/-- Two names with the same checksum and the default number of replicas: every
key belongs to the one added last, and once that one has been removed there is
no owner for any key although the other one is still a member. -/
theorem same_checksum_order_matters :
    let a : Bytes := [97, 56, 98, 53, 52, 99, 50, 53]
    let b : Bytes := [53, 53, 54, 50, 97, 101, 54, 57]
    ∀ key, ((new 0).applyAll [.add [a], .add [b]]).get key = some b ∧
      ((new 0).applyAll [.add [b], .add [a]]).get key = some a ∧
      ((new 0).applyAll [.add [a], .add [b], .remove b]).get key = none ∧
      ((new 0).applyAll [.add [a], .add [b], .remove b]).nodes = {a} := by
  intro a b key
  have heq : hashKey a = hashKey b := by decide +kernel
  have hne : a ≠ b := by decide
  have hadds : ∀ first second : Bytes, (new 0).applyAll [.add [first], .add [second]] =
      ((new 0).add [first]).add [second] := fun _ _ => rfl
  have hremove : (new 0).applyAll [.add [a], .add [b], .remove b] =
      (((new 0).add [a]).add [b]).remove b := rfl
  have hnodes : ((((new 0).add [a]).add [b]).remove b).nodes = {a} := by
    rw [nodes_remove, nodes_add, nodes_add]
    decide
  rw [hadds, hadds, hremove]
  exact ⟨get_of_same_points 0 heq hne key, get_of_same_points 0 heq.symm hne.symm key,
    get_remove_of_same_points 0 heq hne key, hnodes⟩

end Ring

end HashRing
end DistCache
