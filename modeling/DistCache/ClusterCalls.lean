import DistCache.ClientMap
import DistCache.HashRing

/-!
# The cluster client

A cluster client puts the nodes on a ring of its own, in whatever order it goes through
its table, and sends each call to the node that owns the key, which it dials when it
needs it for the first time.

Any number of cluster clients that were given the same nodes see one map: their rings
agree if the nodes stand at different points, and no node holds a key of another.  The
clocks of the nodes need not agree.
-/

namespace DistCache
namespace Client

open CacheServer DeadlineStore HashRing RequestReply Resp Transition

variable {lib : Lib} {cfg : CacheServer.Config} {L : Layout}

/-! ## The cluster client -/

abbrev Nodes := AList (fun _ : Bytes => Bytes)

structure ClusterClient where
  password : Bytes
  ring : Ring
  addrs : Nodes
  clients : AList (fun _ : Bytes => ℕ)

inductive DialError where
  | unreachable
  | refused (err : CallError)
  deriving DecidableEq

inductive ClusterError where
  | noNodes
  | emptyCluster
  | dial (id addr : Bytes) (err : DialError)
  deriving DecidableEq

namespace ClusterClient

def addNode (cc : ClusterClient) (id addr : Bytes) : ClusterClient :=
  { cc with addrs := cc.addrs.insert id addr, ring := cc.ring.add [id] }

def addNodes (nodes : Nodes) (password : Bytes) : ClusterClient :=
  nodes.entries.foldl (fun cc node => cc.addNode node.1 node.2) ⟨password, Ring.new 0, ∅, ∅⟩

def newCluster (nodes : Nodes) (password : Bytes) :
    Except ClusterError ClusterClient :=
  if nodes.entries = [] then .error .noNodes else .ok (addNodes nodes password)

def ownerOf (cc : ClusterClient) (key : Key) : Option Bytes := cc.ring.get key

def addrOf (cc : ClusterClient) (id : Bytes) : Bytes := (cc.addrs.lookup id).getD []

end ClusterClient

inductive ClusterMethod where
  | set (key value : Bytes)
  | setEX (key value : Bytes) (ttl : Int64)
  | get (key : Bytes)
  | del (key : Bytes)
  | incr (key : Bytes)
  deriving DecidableEq

namespace ClusterMethod

def key : ClusterMethod → Key
  | .set key _ => key
  | .setEX key _ _ => key
  | .get key => key
  | .del key => key
  | .incr key => key

def method : ClusterMethod → Method
  | .set key value => .set key value
  | .setEX key value lifetime => .setEX key value lifetime
  | .get key => .get key
  | .del key => .del [key]
  | .incr key => .incr key

end ClusterMethod

/-! ## The nodes -/

/-- The servers at their addresses, and where the connections lead. -/
structure Hosts (lib : Lib) (L : Layout) where
  servers : Bytes → Clients lib L
  host : ℕ → Bytes

namespace Hosts

def set (h : Hosts lib L) (addr : Bytes) (s : Clients lib L) : Hosts lib L :=
  { h with servers := Function.update h.servers addr s }

def handle (cfg : CacheServer.Config) (h : Hosts lib L) (env : Env L) (i : ℕ) (cmd : Command) :
    Hosts lib L × List CacheServer.Reply :=
  let r := Client.handle lib cfg (h.servers (h.host i)) env i cmd
  (h.set (h.host i) r.1, r.2)

def background (addr : Bytes) (b : Background L) (h : Hosts lib L) : Hosts lib L :=
  h.set addr (b.run (h.servers addr))

/-- The connection `i` is opened; nobody else uses it while it is let in. -/
def dialPassword (cfg : CacheServer.Config) (h : Hosts lib L) (env : Env L) (i : ℕ)
    (addr password : Bytes) : Hosts lib L × Except DialError Unit :=
  let connected := { h with host := Function.update h.host i addr }
  if password = [] then (connected, .ok ())
  else
    let r := connected.handle cfg env i (Method.auth password).command
    match r.2.map fun reply => (Method.auth password).result reply with
    | [.ok _] => (r.1, .ok ())
    | [.error err] => (r.1, .error (.refused err))
    | _ => (r.1, .error .unreachable)

end Hosts

def clusterWire (lib : Lib) (cfg : CacheServer.Config) (L : Layout) :
    Service (Hosts lib L) (Env L) Method Command CacheServer.Reply UInt8 where
  request := (wire lib cfg L).request
  writeRequest := (wire lib cfg L).writeRequest
  readRequest := (wire lib cfg L).readRequest
  serve := Hosts.handle cfg
  writeReply := (wire lib cfg L).writeReply
  readReply := (wire lib cfg L).readReply

abbrev Seen (lib : Lib) (L : Layout) :=
  List (Trace (Hosts lib L) (Env L) Method CacheServer.Reply)

/-! ## The cluster -/

structure Cluster (lib : Lib) (L : Layout) where
  net : Net (Hosts lib L) Method UInt8
  members : ℕ → ClusterClient
  next : ℕ

/-- What a member of the cluster does, and what the nodes do.  Where a member has to
dial, the dialling fails or finds the server. -/
inductive ClusterMove (L : Layout) where
  | invoke (p : ℕ) (m : ClusterMethod) (dialled : Option (Env L))
  | serve (addr : Bytes) (i : ℕ) (env : Env L)
  | ret (i : ℕ)
  | background (addr : Bytes) (b : Background L)

namespace Cluster

def dial (cfg : CacheServer.Config) (c : Cluster lib L) (p : ℕ) (id : Bytes) (env : Env L) :
    Cluster lib L × Except ClusterError ℕ :=
  let cc := c.members p
  let r := c.net.server.dialPassword cfg env c.next (cc.addrOf id) cc.password
  let net := { c.net with server := r.1 }
  match r.2 with
  | .error err => ({ c with net := net, next := c.next + 1 },
      .error (.dial id (cc.addrOf id) err))
  | .ok _ => ({
      net := net
      next := c.next + 1
      members := Function.update c.members p
        { cc with clients := cc.clients.insert id c.next } }, .ok c.next)

def clientFor (cfg : CacheServer.Config) (c : Cluster lib L) (p : ℕ) (key : Key)
    (dialled : Option (Env L)) : Cluster lib L × Except ClusterError ℕ :=
  let cc := c.members p
  match cc.ring.get key with
  | none => (c, .error .emptyCluster)
  | some id =>
      match cc.clients.lookup id, dialled with
      | some i, _ => (c, .ok i)
      | none, none => (c, .error (.dial id (cc.addrOf id) .unreachable))
      | none, some env => c.dial cfg p id env

/-- A call whose client has to be dialled and cannot is over. -/
def step (cfg : CacheServer.Config) (c : Cluster lib L) : ClusterMove L → Option (Cluster lib L)
  | .invoke p m dialled =>
      match c.clientFor cfg p m.key dialled with
      | (c, .error _) => some c
      | (c, .ok i) => ((clusterWire lib cfg L).step c.net (.call i m.method)).map fun net =>
          { c with net := net }
  | .serve addr i env =>
      if c.net.server.host i = addr then
        ((clusterWire lib cfg L).step c.net (.serve i env)).map fun net => { c with net := net }
      else none
  | .ret i =>
      ((clusterWire lib cfg L).step c.net (.ret i)).map fun net => { c with net := net }
  | .background addr b =>
      ((clusterWire lib cfg L).step c.net (.background (Hosts.background addr b))).map fun net =>
        { c with net := net }

def dialTrace (cfg : CacheServer.Config) (c : Cluster lib L) (p : ℕ) (key : Key)
    (dialled : Option (Env L)) : Seen lib L :=
  let cc := c.members p
  match cc.ring.get key with
  | none => []
  | some id =>
      match cc.clients.lookup id, dialled with
      | none, some env => [.effect (.background fun h =>
          (h.dialPassword cfg env c.next (cc.addrOf id) cc.password).1)]
      | _, _ => []

def trace (cfg : CacheServer.Config) (c : Cluster lib L) :
    ClusterMove L → Seen lib L
  | .invoke p m dialled => c.dialTrace cfg p m.key dialled
  | .serve _ i env => (clusterWire lib cfg L).trace c.net (.serve i env)
  | .ret i => (clusterWire lib cfg L).trace c.net (.ret i)
  | .background addr b =>
      (clusterWire lib cfg L).trace c.net (.background (Hosts.background addr b))

end Cluster

/-! ## The rings of the members -/

namespace ClusterClient

variable {nodes : Nodes} {password : Bytes} {cc : ClusterClient}

theorem foldl_addNode (cc : ClusterClient) (entries : List (Σ _ : Bytes, Bytes)) :
    (entries.foldl (fun cc node => cc.addNode node.1 node.2) cc).ring =
        cc.ring.applyAll (entries.map fun node => .add [node.1]) ∧
      (entries.foldl (fun cc node => cc.addNode node.1 node.2) cc).password = cc.password ∧
      (entries.foldl (fun cc node => cc.addNode node.1 node.2) cc).clients = cc.clients := by
  induction entries generalizing cc with
  | nil => exact ⟨rfl, rfl, rfl⟩
  | cons node rest ih => exact ih (cc.addNode node.1 node.2)

theorem lookup_foldl_addNode (cc : ClusterClient) {entries : List (Σ _ : Bytes, Bytes)}
    (hnodup : entries.NodupKeys) (id : Bytes) :
    (entries.foldl (fun cc node => cc.addNode node.1 node.2) cc).addrs.lookup id =
      (entries.dlookup id).or (cc.addrs.lookup id) := by
  induction entries generalizing cc with
  | nil => rfl
  | cons node rest ih =>
      obtain ⟨first, addr⟩ := node
      obtain ⟨hnew, hrest⟩ := List.nodupKeys_cons.mp hnodup
      rw [List.foldl_cons, ih (cc.addNode first addr) hrest]
      by_cases hid : id = first
      · subst hid
        rw [List.dlookup_eq_none.mpr hnew, addNode, AList.lookup_insert, List.dlookup_cons_eq]
        rfl
      · rw [List.dlookup_cons_ne _ _ hid, addNode, AList.lookup_insert_ne hid]

theorem newCluster_spec (hnew : newCluster nodes password = .ok cc) :
    cc.ring = (Ring.new 0).applyAll (nodes.keys.map fun id => .add [id]) ∧
      (∀ id, cc.addrs.lookup id = nodes.lookup id) ∧ cc.password = password ∧
      cc.clients = ∅ ∧ nodes.keys ≠ [] := by
  unfold newCluster at hnew
  split_ifs at hnew with hempty
  cases hnew
  obtain ⟨hring, hpassword, hclients⟩ :=
    foldl_addNode ⟨password, Ring.new 0, ∅, ∅⟩ nodes.entries
  refine ⟨?_, ?_, hpassword, hclients, ?_⟩
  · rw [addNodes, hring, AList.keys, List.keys, List.map_map]
    rfl
  · intro id
    rw [addNodes, lookup_foldl_addNode _ nodes.nodupKeys, AList.lookup_empty, Option.or_none]
    rfl
  · intro hkeys
    exact hempty (List.map_eq_nil_iff.mp hkeys)

end ClusterClient

def route (nodes : Nodes) (key : Key) : Bytes :=
  ((((Ring.new 0).add nodes.keys).get key).bind nodes.lookup).getD []

theorem orderFree_nodes {ids : List Bytes}
    (hseparate : Table.Separate (Ring.new 0).replicas ids.toFinset) :
    Ring.OrderFree 0 ((Ring.new 0).add ids) := by
  have hnodes : ((Ring.new 0).add ids).nodes = ids.toFinset := by
    rw [Ring.nodes_add]
    exact Finset.empty_union _
  have hfree : Ring.OrderFree 0 ((Ring.new 0).applyAll [.add ids]) := by
    apply Ring.orderFree_of_separate
    intro before hbefore
    rcases List.prefix_cons_iff.mp hbefore with rfl | ⟨rest, rfl, hrest⟩
    · exact hseparate.subset (Finset.empty_subset _)
    · rw [List.prefix_nil.mp hrest]
      exact hseparate.subset hnodes.subset
  exact hfree

theorem ClusterClient.get_newCluster {nodes order : Nodes}
    {password : Bytes} {cc : ClusterClient}
    (hseparate : Table.Separate (Ring.new 0).replicas nodes.keys.toFinset)
    (hsame : order.entries.Perm nodes.entries) (hnew : newCluster order password = .ok cc)
    (key : Key) :
    ∃ id, cc.ring.get key = some id ∧ cc.addrOf id = route nodes key := by
  obtain ⟨hring, haddrs, _, _, hkeys⟩ := newCluster_spec hnew
  have hids : order.keys.toFinset = nodes.keys.toFinset :=
    List.toFinset_eq_of_perm _ _ (hsame.map Sigma.fst)
  have hflatten : (order.keys.map fun id => [id]).flatten = order.keys := by
    rw [← List.flatMap_def, List.flatMap_singleton']
  have hbatches : cc.ring = (Ring.new 0).applyAll ((order.keys.map fun id => [id]).map .add) := by
    rw [hring, List.map_map]
    rfl
  have hnodes : ((Ring.new 0).add nodes.keys).nodes = nodes.keys.toFinset := by
    rw [Ring.nodes_add]
    exact Finset.empty_union _
  have hget := orderFree_nodes hseparate (order.keys.map fun id => [id])
    (by rw [hflatten, hids, hnodes]) key
  rw [← hbatches] at hget
  have hsound : cc.ring.Sound cc.ring.replicas := by
    rw [hring, Ring.replicas_applyAll]
    exact Ring.sound_applyAll (Ring.sound_new 0) _
  have hfaithful : cc.ring.Faithful cc.ring.replicas := by
    rw [hbatches, Ring.replicas_applyAll]
    apply Ring.faithful_adds
    rw [hflatten, hids]
    exact hseparate
  have hnonempty : cc.ring.nodes.Nonempty := by
    rw [hbatches, Ring.nodes_adds, hflatten, List.toFinset_nonempty_iff]
    exact hkeys
  obtain ⟨id, _, hid⟩ := Ring.get_of_nonempty hsound hfaithful hnonempty key
  refine ⟨id, hid, ?_⟩
  rw [addrOf, haddrs, AList.perm_lookup hsame, route, hget, hid, Option.bind_some]

/-! ## The parts of the map -/

def part (route : Key → Bytes) (addr : Bytes) (m : Contents) : Contents :=
  fun key => if route key = addr then m key else none

theorem ClusterMethod.spec_local (r : ClusterMethod) (clock : Clock) (m other : Contents)
    (hsame : m r.key = other r.key) :
    (r.method.spec clock m).2 = (r.method.spec clock other).2 ∧
      (r.method.spec clock m).1 r.key = (r.method.spec clock other).1 r.key ∧
      ∀ key, key ≠ r.key → (r.method.spec clock m).1 key = m key := by
  have hput : ∀ (store : Contents) (k v : Bytes) (expireAt : ℤ) (key : Key), key ≠ k →
      ExpiringMap.put store k v expireAt key = store key :=
    fun store k v expireAt key hne => Function.update_of_ne hne _ _
  cases r with
  | set k v =>
      refine ⟨rfl, ?_, hput m k v 0⟩
      simp [ClusterMethod.method, Method.spec, ClusterMethod.key, ExpiringMap.put]
  | setEX k v lifetime =>
      simp only [ClusterMethod.method, Method.spec, ClusterMethod.key] at hsame ⊢
      split_ifs
      · refine ⟨rfl, ?_, hput m k v _⟩
        simp [ExpiringMap.put]
      · exact ⟨rfl, hsame, fun _ _ => rfl⟩
  | get k =>
      simp only [ClusterMethod.method, Method.spec, ClusterMethod.key] at hsame ⊢
      rw [← hsame]
      cases live clock.first (m k) with
      | none => exact ⟨rfl, hsame, fun _ _ => rfl⟩
      | some it => exact ⟨rfl, hsame, fun _ _ => rfl⟩
  | del k =>
      simp only [ClusterMethod.method, Method.spec, ClusterMethod.key] at hsame ⊢
      rw [← hsame]
      refine ⟨rfl, ?_, fun key hne => Function.update_of_ne hne _ _⟩
      simp
  | incr k =>
      simp only [ClusterMethod.method, Method.spec, ClusterMethod.key, specIncrBy] at hsame ⊢
      rw [← hsame]
      cases ExpiringMap.counter (live clock.first (m k)) with
      | none => exact ⟨rfl, hsame, fun _ _ => rfl⟩
      | some base =>
          refine ⟨rfl, ?_, hput m k _ 0⟩
          simp [ExpiringMap.put]

theorem part_spec (route : Key → Bytes) (r : ClusterMethod) (clock : Clock) (m : Contents) :
    (r.method.spec clock (part route (route r.key) m)).2 = (r.method.spec clock m).2 ∧
      (r.method.spec clock (part route (route r.key) m)).1 =
        part route (route r.key) (r.method.spec clock m).1 ∧
      ∀ addr, addr ≠ route r.key →
        part route addr (r.method.spec clock m).1 = part route addr m := by
  have hsame : part route (route r.key) m r.key = m r.key := if_pos rfl
  obtain ⟨hresult, hkey, hothers⟩ := r.spec_local clock _ m hsame
  obtain ⟨_, _, hkept⟩ := r.spec_local clock m m rfl
  refine ⟨hresult, ?_, ?_⟩
  · funext key
    by_cases hne : key = r.key
    · subst hne
      rw [hkey, part, if_pos rfl]
    · rw [hothers key hne, part, part, hkept key hne]
  · intro addr hne
    funext key
    by_cases howned : route key = addr
    · have hkne : key ≠ r.key := by
        rintro rfl
        exact hne howned.symm
      rw [part, part, hkept key hkne]
    · rw [part, part, if_neg howned, if_neg howned]

/-! ## Values that can be read -/

theorem length_formatInt_int64 (n : ℤ) : (formatInt (int64 n)).length < maxLen := by
  have hdigits : ∀ k : ℕ, k ≤ 2 ^ 63 → (formatNat k).length ≤ 19 := by
    intro k hk
    rw [formatNat]
    split_ifs
    · decide
    · rw [List.length_reverse, List.length_map, Nat.digits_length_le_iff (by decide)]
      exact hk.trans_lt (by decide)
  have habs : (int64 n).natAbs ≤ 2 ^ 63 := by
    rw [int64, Int.bmod_def]
    omega
  have hlength : (formatInt (int64 n)).length ≤ 20 := by
    rw [formatInt]
    split_ifs
    · rw [List.length_cons]
      exact Nat.succ_le_succ (hdigits _ habs)
    · exact (hdigits _ habs).trans (by decide)
  exact hlength.trans_lt (by decide)

theorem Readable.put {m : Contents} (hreadable : Readable m) {value : Bytes}
    (hlength : value.length < maxLen) (key : Key) (expireAt : ℤ) :
    Readable (ExpiringMap.put m key value expireAt) := by
  intro other it hother
  by_cases hsame : other = key
  · subst hsame
    simp only [ExpiringMap.put, Function.update_self, Option.some.injEq] at hother
    rw [← hother]
    exact hlength
  · rw [ExpiringMap.put, Function.update_of_ne hsame] at hother
    exact hreadable other it hother

theorem Readable.spec {m : Contents} (hreadable : Readable m) (r : ClusterMethod)
    (hadmitted : Admitted (r.method.name :: r.method.args)) (clock : Clock) :
    Readable (r.method.spec clock m).1 := by
  have hargs : ∀ arg ∈ r.method.args, arg.length < maxLen := by
    intro arg hmem
    exact (hadmitted.sizes arg (List.mem_cons_of_mem _ hmem)).trans_lt (by decide)
  cases r with
  | set k v => exact hreadable.put (hargs v (by simp [ClusterMethod.method, Method.args])) k 0
  | setEX k v lifetime =>
      simp only [ClusterMethod.method, Method.spec]
      split_ifs
      · exact hreadable.put (hargs v (by simp [ClusterMethod.method, Method.args])) k _
      · exact hreadable
  | get k =>
      simp only [ClusterMethod.method, Method.spec]
      cases live clock.first (m k) <;> exact hreadable
  | del k =>
      intro other it hother
      simp only [ClusterMethod.method, Method.spec] at hother
      by_cases hsame : other = k
      · subst hsame
        simp at hother
      · rw [Function.update_of_ne hsame] at hother
        exact hreadable other it hother
  | incr k =>
      simp only [ClusterMethod.method, Method.spec, specIncrBy]
      cases ExpiringMap.counter (live clock.first (m k)) with
      | none => exact hreadable
      | some base => exact hreadable.put (length_formatInt_int64 _) k 0

theorem Readable.part {m : Contents} (hreadable : Readable m) (route : Key → Bytes)
    (addr : Bytes) : Readable (part route addr m) := by
  intro key it hpart
  rw [Client.part] at hpart
  split_ifs at hpart
  exact hreadable key it hpart

theorem ClusterMethod.single (r : ClusterMethod) : r.method.Single := by
  cases r with
  | del key => exact le_refl 1
  | _ => trivial

theorem ClusterMethod.isLeft_role (r : ClusterMethod) : r.method.role.isLeft = true := by
  cases r <;> rfl

/-! ## Connections that are let in -/

structure Entered (cfg : CacheServer.Config) (next : ℕ) (h : Hosts lib L) (i : ℕ)
    (addr : Bytes) : Prop where
  taken : i < next
  host : h.host i = addr
  letIn : LetIn cfg ((h.servers addr).conns i)

/-- The connections that are taken lead where they led, and what was let in is let
in. -/
structure Hosts.Kept (cfg : CacheServer.Config) (next : ℕ) (h later : Hosts lib L) : Prop where
  host : ∀ i < next, later.host i = h.host i
  letIn : ∀ addr i, LetIn cfg ((h.servers addr).conns i) →
    LetIn cfg ((later.servers addr).conns i)
  ready : ∀ addr i, Ready ((later.servers addr).conns i)

theorem Entered.kept {next next' : ℕ} {h later : Hosts lib L} {i : ℕ} {addr : Bytes}
    (hentered : Entered cfg next h i addr) (hnext : next ≤ next')
    (hkept : Hosts.Kept cfg next h later) : Entered cfg next' later i addr :=
  ⟨hentered.taken.trans_le hnext, (hkept.host i hentered.taken).trans hentered.host,
    hkept.letIn addr i hentered.letIn⟩

structure Member (cfg : CacheServer.Config) (route : Key → Bytes) (next : ℕ) (h : Hosts lib L)
    (cc : ClusterClient) : Prop where
  routed : ∀ key, ∃ id, cc.ring.get key = some id ∧ cc.addrOf id = route key
  password : cc.password = cfg.password
  pooled : ∀ id i, cc.clients.lookup id = some i → Entered cfg next h i (cc.addrOf id)

section Members

variable {route : Key → Bytes} {next next' : ℕ} {h later : Hosts lib L} {cc : ClusterClient}

theorem Member.kept (hmember : Member cfg route next h cc) (hnext : next ≤ next')
    (hkept : Hosts.Kept cfg next h later) : Member cfg route next' later cc :=
  ⟨hmember.routed, hmember.password,
    fun id i hlookup => (hmember.pooled id i hlookup).kept hnext hkept⟩

theorem Member.insert (hmember : Member cfg route next h cc) {id : Bytes} {i : ℕ}
    (hentered : Entered cfg next h i (cc.addrOf id)) :
    Member cfg route next h { cc with clients := cc.clients.insert id i } := by
  refine ⟨hmember.routed, hmember.password, ?_⟩
  intro other j hother
  by_cases hid : other = id
  · subst hid
    rw [AList.lookup_insert, Option.some.injEq] at hother
    rw [← hother]
    exact hentered
  · rw [AList.lookup_insert_ne hid] at hother
    exact hmember.pooled other j hother

end Members

namespace Hosts

variable {h : Hosts lib L}

theorem kept_set (hready : ∀ addr i, Ready ((h.servers addr).conns i)) (next : ℕ)
    {addr : Bytes} {s : Clients lib L}
    (hletIn : ∀ i, LetIn cfg ((h.servers addr).conns i) → LetIn cfg (s.conns i))
    (hs : ∀ i, Ready (s.conns i)) : Kept cfg next h (h.set addr s) := by
  refine ⟨fun _ _ => rfl, ?_, ?_⟩
  · intro other i hother
    by_cases hsame : other = addr
    · subst hsame
      simp only [set, Function.update_self]
      exact hletIn i hother
    · simp only [set, Function.update_of_ne hsame]
      exact hother
  · intro other i
    by_cases hsame : other = addr
    · subst hsame
      simp only [set, Function.update_self]
      exact hs i
    · simp only [set, Function.update_of_ne hsame]
      exact hready other i

theorem kept_handle (hready : ∀ addr i, Ready ((h.servers addr).conns i)) (next : ℕ)
    (env : Env L) (i : ℕ) (m : Method) :
    Kept cfg next h (h.handle cfg env i m.command).1 :=
  kept_set hready next (fun _ hletIn => hletIn.handle (hready _) env i m)
    (ready_handle (hready _) env i m)

theorem kept_background (cfg : CacheServer.Config)
    (hready : ∀ addr i, Ready ((h.servers addr).conns i)) (next : ℕ) (addr : Bytes)
    (b : Background L) : Kept cfg next h (h.background addr b) := by
  apply kept_set hready
  · intro i hletIn
    rw [b.conns_run]
    exact hletIn
  · intro i
    rw [b.conns_run]
    exact hready addr i

theorem serve_auth {s : Clients lib L} {i : ℕ} (hready : Ready (s.conns i)) (password : Bytes)
    (env : Env L) :
    serve lib cfg ⟨s.conns i, s.server⟩ (Method.auth password).command env =
      Verb.run lib cfg env (s.conns i) s.server.incCommands (Method.auth password).command
        .auth := by
  have hallowed : text "AUTH" ∈ beforeAuth := by decide
  have hname : lib.toUpper (Method.auth password).command.name = (Method.auth password).name :=
    (Method.auth password).toUpper_name lib
  rw [serve_ready hready, if_neg (fun h => h.2.2 hallowed), execute, hname,
    (Method.auth password).verbs_name]
  rfl

theorem cache_handle_auth {s : Clients lib L} {i : ℕ} (hready : Ready (s.conns i))
    (password : Bytes) (env : Env L) :
    (Client.handle lib cfg s env i (Method.auth password).command).1.server.engine =
      s.server.engine := by
  simp only [Client.handle]
  rw [serve_auth hready, engine_run rfl]
  rfl

theorem letIn_handle_auth {s : Clients lib L} {i : ℕ} (hready : Ready (s.conns i))
    (env : Env L) :
    LetIn cfg ((Client.handle lib cfg s env i (Method.auth cfg.password).command).1.conns i) := by
  by_cases hnone : cfg.password = []
  · exact Or.inl hnone
  · right
    simp only [Client.handle, Function.update_self]
    rw [serve_auth hready]
    simp only [Verb.run, cmdAuth, Method.command, Method.args, if_neg hnone, ne_eq,
      not_true_eq_false, if_false]

theorem Kept.trans {middle later : Hosts lib L} {next : ℕ} (hfirst : Kept cfg next h middle)
    (hsecond : Kept cfg next middle later) : Kept cfg next h later :=
  ⟨fun i hi => (hsecond.host i hi).trans (hfirst.host i hi),
    fun addr i hletIn => hsecond.letIn addr i (hfirst.letIn addr i hletIn), hsecond.ready⟩

theorem dialPassword_fst (env : Env L) (i : ℕ) (addr password : Bytes) :
    (h.dialPassword cfg env i addr password).1 =
      if password = [] then { h with host := Function.update h.host i addr }
      else (handle cfg { h with host := Function.update h.host i addr } env i
        (Method.auth password).command).1 := by
  unfold dialPassword
  by_cases hnone : password = []
  · rw [if_pos hnone, if_pos hnone]
  · rw [if_neg hnone, if_neg hnone]
    dsimp only
    split <;> rfl

theorem kept_dialPassword (cfg : CacheServer.Config)
    (hready : ∀ addr i, Ready ((h.servers addr).conns i)) (env : Env L) (next : ℕ)
    (addr : Bytes) :
    Kept cfg next h (h.dialPassword cfg env next addr cfg.password).1 ∧
      (h.dialPassword cfg env next addr cfg.password).1.host next = addr ∧
      LetIn cfg (((h.dialPassword cfg env next addr cfg.password).1.servers addr).conns next) ∧
      ∀ other, ((h.dialPassword cfg env next addr cfg.password).1.servers
        other).server.engine = (h.servers other).server.engine := by
  have hconnected : Kept cfg next h { h with host := Function.update h.host next addr } :=
    ⟨fun i hi => Function.update_of_ne hi.ne _ _, fun _ _ hletIn => hletIn, hready⟩
  rw [dialPassword_fst]
  by_cases hnone : cfg.password = []
  · rw [if_pos hnone]
    exact ⟨hconnected, Function.update_self .., Or.inl hnone, fun _ => rfl⟩
  · rw [if_neg hnone]
    refine ⟨hconnected.trans (kept_handle hconnected.ready next env next _),
      Function.update_self .., ?_, ?_⟩
    · simp only [handle, set, Function.update_self]
      exact letIn_handle_auth (hready addr next) env
    · intro other
      simp only [handle, set, Function.update_self]
      by_cases hsame : other = addr
      · subst hsame
        rw [Function.update_self]
        exact cache_handle_auth (hready other next) cfg.password env
      · rw [Function.update_of_ne hsame]

end Hosts

/-! ## Runs -/

/-- The clock of no node goes backwards.  `final` is the time on the nodes at the
end. -/
def ClusterTimely (now : Bytes → ℤ) : List (ClusterMove L) → (Bytes → ℤ) → Prop
  | [], final => now = final
  | .serve addr _ env :: rest, final =>
      now addr ≤ (env.clock 0).first ∧ (env.clock 0).first ≤ (env.clock 0).second ∧
        ClusterTimely (Function.update now addr (env.clock 0).second) rest final
  | .background addr b :: rest, final =>
      ∃ later, now addr ≤ later ∧ b.At later ∧
        ClusterTimely (Function.update now addr later) rest final
  | .invoke _ _ _ :: rest, final => ClusterTimely now rest final
  | .ret _ :: rest, final => ClusterTimely now rest final

def ClusterProper : ClusterMove L → Prop
  | .invoke _ m _ => Admitted (m.method.name :: m.method.args)
  | _ => True

def mapped (events : Seen lib L) : Contents × List (Answer Method Expected) :=
  expected (fun _ => none) (effects events)

structure OneMap (cfg : CacheServer.Config) (route : Key → Bytes) (start : Hosts lib L)
    (now : Bytes → ℤ) (c : Cluster lib L)
    (events : Seen lib L) : Prop where
  linked : (clusterWire lib cfg L).Linked start c.net events
  agree : List.Forall₂ Agrees ((clusterWire lib cfg L).sequential start (effects events)).2
    (mapped events).2
  parts : ∀ addr, (c.net.server.servers addr).server.engine.cache.Implements (now addr)
    (part route addr (mapped events).1)
  ready : ∀ addr i, Ready ((c.net.server.servers addr).conns i)
  members : ∀ p, Member cfg route c.next c.net.server (c.members p)
  readable : Readable (mapped events).1
  waiting : ∀ i m, c.net.asked i = some m → ∃ r : ClusterMethod, m = r.method ∧
    Admitted (m.name :: m.args) ∧ Entered cfg c.next c.net.server i (route r.key)

section Steps

variable {route : Key → Bytes} {start : Hosts lib L} {now : Bytes → ℤ} {c : Cluster lib L}
    {events : Seen lib L}

theorem clusterRequest_nil : (clusterWire lib cfg L).readRequest [] = none := rfl

theorem clusterReply_nil : (clusterWire lib cfg L).readReply [] = none := rfl

theorem OneMap.background (hmap : OneMap cfg route start now c events)
    {f : Hosts lib L → Hosts lib L} {c' : Cluster lib L} {later : Bytes → ℤ}
    (hnet : c'.net = { c.net with server := f c.net.server }) (hnext : c.next ≤ c'.next)
    (hkept : Hosts.Kept cfg c.next c.net.server (f c.net.server))
    (hparts : ∀ addr, ((f c.net.server).servers addr).server.engine.cache.Implements (later addr)
      (part route addr (mapped events).1))
    (hmembers : ∀ p, Member cfg route c'.next (f c.net.server) (c'.members p)) :
    OneMap cfg route start later c' (events ++ [.effect (.background f)]) := by
  have hexpected : mapped (events ++ [.effect (.background f)]) = mapped events := by
    rw [mapped, effects_append, effects_effect, expected_append]
    simp only [expected, List.append_nil]
    rfl
  have hlinked : (clusterWire lib cfg L).Linked start { c.net with server := f c.net.server }
      (events ++ [.effect (.background f)]) := Service.linked_background hmap.linked rfl
  have hserver : c'.net.server = f c.net.server := by rw [hnet]
  refine ⟨?_, ?_, ?_, ?_, ?_, ?_, ?_⟩
  · rw [hnet]
    exact hlinked
  · rw [hexpected, Service.sequential_background]
    exact hmap.agree
  · rw [hexpected, hserver]
    exact hparts
  · rw [hserver]
    exact hkept.ready
  · rw [hserver]
    exact hmembers
  · rw [hexpected]
    exact hmap.readable
  · intro i m hasked
    rw [hnet] at hasked
    obtain ⟨r, hm, hadmitted, hentered⟩ := hmap.waiting i m hasked
    rw [hserver]
    exact ⟨r, hm, hadmitted, hentered.kept hnext hkept⟩

theorem OneMap.dial (hmap : OneMap cfg route start now c events) (p : ℕ) (id : Bytes)
    (env : Env L) :
    OneMap cfg route start now (c.dial cfg p id env).1 (events ++ [.effect (.background fun h =>
        (h.dialPassword cfg env c.next ((c.members p).addrOf id) (c.members p).password).1)]) ∧
      ∀ i, (c.dial cfg p id env).2 = .ok i →
        Entered cfg (c.dial cfg p id env).1.next (c.dial cfg p id env).1.net.server i
          ((c.members p).addrOf id) := by
  have hpassword := (hmap.members p).password
  obtain ⟨hkept, hhost, hletIn, hengine⟩ :=
    Hosts.kept_dialPassword cfg hmap.ready env c.next ((c.members p).addrOf id)
  have hparts : ∀ addr, ((c.net.server.dialPassword cfg env c.next ((c.members p).addrOf id)
      cfg.password).1.servers addr).server.engine.cache.Implements (now addr)
      (part route addr (mapped events).1) := by
    intro addr
    rw [hengine addr]
    exact hmap.parts addr
  have hmembers : ∀ q, Member cfg route (c.next + 1) (c.net.server.dialPassword cfg env c.next
      ((c.members p).addrOf id) cfg.password).1 (c.members q) :=
    fun q => (hmap.members q).kept (Nat.le_succ _) hkept
  have hentered : Entered cfg (c.next + 1) (c.net.server.dialPassword cfg env c.next
      ((c.members p).addrOf id) cfg.password).1 c.next ((c.members p).addrOf id) :=
    ⟨Nat.lt_succ_self _, hhost, hletIn⟩
  simp only [Cluster.dial]
  rw [← hpassword] at hkept hparts hmembers hentered
  cases (c.net.server.dialPassword cfg env c.next ((c.members p).addrOf id)
      (c.members p).password).2 with
  | error err =>
      refine ⟨hmap.background rfl (Nat.le_succ _) hkept hparts hmembers, ?_⟩
      rintro i ⟨⟩
  | ok _ =>
      refine ⟨hmap.background rfl (Nat.le_succ _) hkept hparts ?_, ?_⟩
      · intro q
        dsimp only
        by_cases hq : q = p
        · subst hq
          rw [Function.update_self]
          exact (hmembers q).insert hentered
        · rw [Function.update_of_ne hq]
          exact hmembers q
      · rintro i ⟨⟩
        exact hentered

theorem OneMap.clientFor (hmap : OneMap cfg route start now c events) (p : ℕ) (key : Key)
    (dialled : Option (Env L)) :
    OneMap cfg route start now (c.clientFor cfg p key dialled).1
        (events ++ c.dialTrace cfg p key dialled) ∧
      ∀ i, (c.clientFor cfg p key dialled).2 = .ok i →
        Entered cfg (c.clientFor cfg p key dialled).1.next
          (c.clientFor cfg p key dialled).1.net.server i (route key) := by
  obtain ⟨id, hget, haddr⟩ := (hmap.members p).routed key
  simp only [Cluster.clientFor, Cluster.dialTrace, hget]
  cases hlookup : (c.members p).clients.lookup id with
  | some i =>
      simp only [List.append_nil]
      refine ⟨hmap, ?_⟩
      rintro j ⟨⟩
      rw [← haddr]
      exact (hmap.members p).pooled id i hlookup
  | none =>
      cases dialled with
      | none =>
          simp only [List.append_nil]
          refine ⟨hmap, ?_⟩
          rintro j ⟨⟩
      | some env =>
          rw [← haddr]
          exact hmap.dial p id env

theorem OneMap.move (hmap : OneMap cfg route start now c events)
    {net : Net (Hosts lib L) Method UInt8} {seen : Seen lib L}
    (hlinked : (clusterWire lib cfg L).Linked start net (events ++ seen))
    (hserver : net.server = c.net.server) (heffects : effects (events ++ seen) = effects events)
    (hwaiting : ∀ i m, net.asked i = some m → ∃ r : ClusterMethod, m = r.method ∧
      Admitted (m.name :: m.args) ∧ Entered cfg c.next c.net.server i (route r.key)) :
    OneMap cfg route start now { c with net := net } (events ++ seen) := by
  have hmapped : mapped (events ++ seen) = mapped events := by rw [mapped, heffects, mapped]
  rw [← hserver] at hwaiting
  refine ⟨hlinked, ?_, ?_, ?_, ?_, ?_, hwaiting⟩
  · rw [heffects, hmapped]
    exact hmap.agree
  · rw [hmapped, hserver]
    exact hmap.parts
  · rw [hserver]
    exact hmap.ready
  · rw [hserver]
    exact hmap.members
  · rw [hmapped]
    exact hmap.readable

theorem OneMap.invoke (hmap : OneMap cfg route start now c events) {p : ℕ} {m : ClusterMethod}
    {dialled : Option (Env L)} {c' : Cluster lib L}
    (hadmitted : Admitted (m.method.name :: m.method.args))
    (hstep : c.step cfg (.invoke p m dialled) = some c') :
    OneMap cfg route start now c' (events ++ c.trace cfg (.invoke p m dialled)) := by
  obtain ⟨hready, hentered⟩ := hmap.clientFor p m.key dialled
  simp only [Cluster.step] at hstep
  rw [Cluster.trace]
  rcases hfound : c.clientFor cfg p m.key dialled with ⟨found, result⟩
  rw [hfound] at hready hentered hstep
  cases result with
  | error err =>
      cases hstep
      exact hready
  | ok i =>
      obtain ⟨net, hnet, rfl⟩ := Option.map_eq_some_iff.mp hstep
      have hread : (wire lib cfg L).readRequest ((wire lib cfg L).writeRequest m.method) =
          some (m.method.command, []) := readRequest_write hadmitted
      have hcall := Service.linked_call hready.linked hread hnet
      obtain ⟨_, hnext⟩ := Service.step_call hnet
      have hmoved := hready.move hcall (by rw [hnext]) (by simp [Service.trace]) ?_
      · rw [Service.trace, List.append_nil] at hmoved
        exact hmoved
      · intro j other hasked
        rw [hnext] at hasked
        by_cases hj : j = i
        · subst hj
          simp only [Function.update_self, Option.some.injEq] at hasked
          subst hasked
          exact ⟨m, rfl, hadmitted, hentered j rfl⟩
        · simp only [Function.update_of_ne hj] at hasked
          exact hready.waiting j other hasked

theorem OneMap.ret (hmap : OneMap cfg route start now c events) {i : ℕ} {c' : Cluster lib L}
    (hstep : c.step cfg (.ret i) = some c') :
    OneMap cfg route start now c' (events ++ c.trace cfg (.ret i)) := by
  simp only [Cluster.step] at hstep
  obtain ⟨net, hnet, rfl⟩ := Option.map_eq_some_iff.mp hstep
  rw [Cluster.trace]
  have hlinked := Service.linked_ret clusterReply_nil hmap.linked hnet
  obtain ⟨m, r, rest, hasked, hread, hnext⟩ := Service.step_ret hnet
  refine hmap.move hlinked (by rw [hnext]) (by simp [Service.trace, hasked, hread]) ?_
  intro j other hother
  rw [hnext] at hother
  by_cases hj : j = i
  · subst hj
    simp only [Function.update_self, reduceCtorEq] at hother
  · simp only [Function.update_of_ne hj] at hother
    exact hmap.waiting j other hother

theorem mapped_serve (cfg : CacheServer.Config) (events : Seen lib L)
    {n : Net (Hosts lib L) Method UInt8} {i : ℕ} {m : Method} (hasked : n.asked i = some m)
    (env : Env L) :
    mapped (events ++ (clusterWire lib cfg L).trace n (.serve i env)) =
      ((m.spec (env.clock 0) (mapped events).1).1, (mapped events).2 ++
        [⟨i, m, (m.spec (env.clock 0) (mapped events).1).2⟩]) := by
  rw [mapped, effects_append, Service.effects_serve hasked, expected_append]
  rfl

theorem orderly_serve {n : Net (Hosts lib L) Method UInt8} {i : ℕ} {m : Method} {env : Env L}
    {reply : CacheServer.Reply} (hready : Ready ((n.server.servers (n.server.host i)).conns i))
    (hasked : n.asked i = some m) (hreply : (n.server.handle cfg env i m.command).2 = [reply])
    (hfits : reply.Fits) : (clusterWire lib cfg L).Orderly n (.serve i env) := by
  intro other hother
  obtain rfl : m = other := Option.some.inj (hasked.symm.trans hother)
  obtain ⟨plain, hwritten, hplain⟩ := written_ready cfg hready
    (n.server.servers (n.server.host i)).server m env
  obtain rfl : plain = reply := (List.cons.inj (hwritten.symm.trans hreply)).1
  have hread : (wire lib cfg L).readReply ((wire lib cfg L).writeReply plain) =
      some (plain, []) := readReply_write hplain hfits
  exact ⟨plain, hreply, hread⟩

theorem OneMap.serve (hmap : OneMap cfg route start now c events) {addr : Bytes} {i : ℕ}
    {env : Env L} {c' : Cluster lib L} (hnow : now addr ≤ (env.clock 0).first)
    (hordered : (env.clock 0).first ≤ (env.clock 0).second)
    (hstep : c.step cfg (.serve addr i env) = some c') :
    OneMap cfg route start (Function.update now addr (env.clock 0).second) c'
      (events ++ c.trace cfg (.serve addr i env)) := by
  simp only [Cluster.step] at hstep
  split_ifs at hstep with haddr
  obtain ⟨net, hnet, rfl⟩ := Option.map_eq_some_iff.mp hstep
  rw [Cluster.trace]
  obtain ⟨m, hasked, hnext⟩ := hmap.linked.serve_inv clusterRequest_nil hnet
  obtain ⟨r, rfl, hadmitted, hentered⟩ := hmap.waiting i m hasked
  obtain rfl : addr = route r.key := haddr.symm.trans hentered.host
  obtain ⟨himpl, reply, hreply, hmeets, hfits⟩ := implements_handle hordered (hmap.ready _ i)
    hentered.letIn ((hmap.parts _).later hnow) r.single
  obtain ⟨hresult, hstore, hothers⟩ :=
    part_spec route r (env.clock 0) (mapped events).1
  have hhandle : (clusterWire lib cfg L).serve c.net.server env i
      ((clusterWire lib cfg L).request r.method) =
        (c.net.server.set (route r.key) (Client.handle lib cfg
          (c.net.server.servers (route r.key)) env i r.method.command).1, [reply]) := by
    have hcommand : (clusterWire lib cfg L).request r.method = r.method.command := rfl
    simp only [clusterWire, Hosts.handle, hentered.host] at hcommand ⊢
    rw [hcommand, hreply]
  have hkept : Hosts.Kept cfg c.next c.net.server net.server := by
    rw [hnext]
    exact Hosts.kept_handle hmap.ready c.next env i r.method
  have hserver : net.server = c.net.server.set (route r.key) (Client.handle lib cfg
      (c.net.server.servers (route r.key)) env i r.method.command).1 := by
    rw [hnext, hhandle]
  have hexpected := mapped_serve cfg events hasked env
  have horderly := orderly_serve (hmap.ready _ i) hasked (congrArg Prod.snd hhandle)
    (hfits r.isLeft_role (hmap.readable.part _ _))
  refine ⟨Service.linked_serve clusterRequest_nil hmap.linked horderly hnet, ?_, ?_, hkept.ready,
    fun p => (hmap.members p).kept (le_refl _) hkept, ?_, ?_⟩
  · rw [hexpected, hmap.linked.sequential_serve hasked (congrArg Prod.snd hhandle)]
    refine List.rel_append hmap.agree (.cons ⟨rfl, rfl, ?_⟩ .nil)
    rw [← hresult]
    exact hmeets
  · intro other
    rw [hexpected, hserver]
    by_cases hother : other = route r.key
    · subst hother
      simp only [Hosts.set, Function.update_self]
      rw [← hstore]
      exact himpl _ (le_refl _)
    · simp only [Hosts.set, Function.update_of_ne hother, hothers other hother]
      exact hmap.parts other
  · rw [hexpected]
    exact hmap.readable.spec r hadmitted (env.clock 0)
  · intro j other hother
    rw [hnext] at hother
    obtain ⟨r', hr', hadmitted', hentered'⟩ := hmap.waiting j other hother
    exact ⟨r', hr', hadmitted', hentered'.kept (le_refl _) hkept⟩

theorem OneMap.step (hmap : OneMap cfg route start now c events) {move : ClusterMove L}
    {rest : List (ClusterMove L)} {final : Bytes → ℤ} {c' : Cluster lib L}
    (htimely : ClusterTimely now (move :: rest) final) (hproper : ClusterProper move)
    (hstep : c.step cfg move = some c') :
    ∃ later, ClusterTimely later rest final ∧
      OneMap cfg route start later c' (events ++ c.trace cfg move) := by
  cases move with
  | invoke p m dialled => exact ⟨now, htimely, hmap.invoke hproper hstep⟩
  | ret i => exact ⟨now, htimely, hmap.ret hstep⟩
  | serve addr i env =>
      obtain ⟨hnow, hordered, hrest⟩ := htimely
      exact ⟨_, hrest, hmap.serve hnow hordered hstep⟩
  | background addr b =>
      obtain ⟨later, hnow, hat, hrest⟩ := htimely
      refine ⟨_, hrest, ?_⟩
      have hc' : c' = { c with net := { c.net with
          server := c.net.server.background addr b } } := (Option.some.inj hstep).symm
      subst hc'
      have hkept := Hosts.kept_background cfg hmap.ready c.next addr b
      refine hmap.background rfl (le_refl _) hkept ?_
        fun p => (hmap.members p).kept (le_refl _) hkept
      intro other
      by_cases hother : other = addr
      · subst hother
        simp only [Hosts.background, Hosts.set, Function.update_self]
        exact b.implements_run hat ((hmap.parts other).later hnow)
      · simp only [Hosts.background, Hosts.set, Function.update_of_ne hother]
        exact hmap.parts other

theorem OneMap.run (hmap : OneMap cfg route start now c events) {moves : List (ClusterMove L)}
    {end_ : Bytes → ℤ} {final : Cluster lib L} (htimely : ClusterTimely now moves end_)
    (hproper : ∀ move ∈ moves, ClusterProper move)
    (hrun : Transition.run (Cluster.step cfg) c moves = some final) :
    OneMap cfg route start end_ final
      (events ++ observe (Cluster.step cfg) (Cluster.trace cfg) c moves) := by
  induction moves generalizing c now events with
  | nil =>
      cases hrun
      cases htimely
      rw [observe, List.append_nil]
      exact hmap
  | cons move rest ih =>
      obtain ⟨next, hnext, hrest⟩ := (run_cons_eq_some _).mp hrun
      obtain ⟨later, htail, hafter⟩ :=
        hmap.step htimely (hproper move List.mem_cons_self) hnext
      rw [observe_cons_of_step _ _ hnext, ← List.append_assoc]
      exact ih hafter htail (fun m hm => hproper m (List.mem_cons_of_mem _ hm)) hrest

end Steps

structure Started (cfg : CacheServer.Config) (nodes : Nodes)
    (now : Bytes → ℤ) (c : Cluster lib L) : Prop where
  quiet : c.net = .quiet c.net.server
  made : ∀ p, ∃ order : Nodes, order.entries.Perm nodes.entries ∧
    ClusterClient.newCluster order cfg.password = .ok (c.members p)
  ready : ∀ addr i, Ready ((c.net.server.servers addr).conns i)
  empty : ∀ addr, (c.net.server.servers addr).server.engine.cache.Implements (now addr)
    fun _ => none

theorem oneMap_of_started {nodes : Nodes} {now : Bytes → ℤ}
    {c : Cluster lib L} (hstart : Started cfg nodes now c)
    (hseparate : Table.Separate (Ring.new 0).replicas nodes.keys.toFinset) :
    OneMap cfg (route nodes) c.net.server now c [] := by
  have hnone : ∀ addr, part (route nodes) addr (fun _ => none) = fun _ => none := by
    intro addr
    funext key
    exact ite_self _
  refine ⟨?_, .nil, ?_, hstart.ready, ?_, ?_, ?_⟩
  · rw [hstart.quiet]
    exact Service.linked_quiet _
  · intro addr
    rw [mapped, effects_nil, expected, hnone]
    exact hstart.empty addr
  · intro p
    obtain ⟨order, hperm, hnew⟩ := hstart.made p
    obtain ⟨_, _, hpassword, hclients, _⟩ := ClusterClient.newCluster_spec hnew
    refine ⟨ClusterClient.get_newCluster hseparate hperm hnew, hpassword, ?_⟩
    intro id i hlookup
    rw [hclients, AList.lookup_empty] at hlookup
    cases hlookup
  · intro key it hnone
    cases hnone
  · intro i m hasked
    rw [hstart.quiet] at hasked
    cases hasked

def twoNodes : Nodes := (AList.singleton [98] [50]).insert [97] [49]

def sameNodes : Nodes := (AList.singleton [97] [49]).insert [98] [50]

def twoMembers : Cluster asciiOnly oneShard where
  net := .quiet ⟨fun _ => emptyClients, fun _ => []⟩
  members := fun p => .addNodes (if p = 0 then twoNodes else sameNodes) [112]
  next := 0

def twoMembersMoves : List (ClusterMove oneShard) :=
  [.invoke 0 (.set [107] [49]) (some atOne), .serve [50] 0 atOne,
    .invoke 1 (.get [107]) (some atOne), .serve [50] 1 atOne, .ret 1, .ret 0]

end Client
end DistCache
