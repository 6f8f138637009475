import DistCache.HashRing

/-!
# The walk around the ring

`GetN` starts at the owner of the key and walks around the ring until it has met
enough different nodes or is back where it started.  It finds the nodes that
have a point, and no more of them than there are: a member whose points have all
gone to other members is never met.
-/

namespace DistCache
namespace HashRing

open CircularSearch

namespace Ring

def walk (r : Ring) (start n : ℕ) : ℕ → ℕ → List Bytes → List Bytes
  | 0, _, out => out
  | fuel + 1, i, out =>
      if out.length < n then
        let node := r.ownerAt ((start + i) % r.ring.length)
        walk r start n fuel (i + 1) (if node ∈ out then out else out ++ [node])
      else out

def getN (r : Ring) (key : Bytes) (n : ℤ) : List Bytes :=
  if r.ring = [] ∨ n ≤ 0 then []
  else
    let wanted := if (r.nodes.card : ℤ) < n then r.nodes.card else n.toNat
    r.walk (r.search (hashKey key)) wanted r.ring.length 0 []

def owning (r : Ring) : Finset Bytes :=
  r.nodes.filter fun node => ∃ h ∈ r.ring, r.owners.lookup h = some node

variable {r : Ring} {start n : ℕ}

/-! ## What the walk collects -/

structure Collected (r : Ring) (start n : ℕ) (i : ℕ) (out : List Bytes) : Prop where
  nodup : out.Nodup
  length_le : out.length ≤ n
  met : ∀ node ∈ out, ∃ j < i, r.ownerAt ((start + j) % r.ring.length) = node
  all : ∀ j < i, r.ownerAt ((start + j) % r.ring.length) ∈ out

theorem Collected.next {i : ℕ} {out : List Bytes} (hcollected : Collected r start n i out)
    (hroom : out.length < n) :
    Collected r start n (i + 1)
      (if r.ownerAt ((start + i) % r.ring.length) ∈ out then out
        else out ++ [r.ownerAt ((start + i) % r.ring.length)]) := by
  obtain ⟨hnodup, _, hmet, hall⟩ := hcollected
  split_ifs with hseen
  · refine ⟨hnodup, hroom.le, ?_, ?_⟩
    · intro node hnode
      obtain ⟨j, hj, howner⟩ := hmet node hnode
      exact ⟨j, by omega, howner⟩
    · intro j hj
      rcases Nat.lt_succ_iff_lt_or_eq.mp hj with hlt | rfl
      · exact hall j hlt
      · exact hseen
  · refine ⟨?_, ?_, ?_, ?_⟩
    · rw [List.nodup_append]
      refine ⟨hnodup, List.nodup_singleton _, ?_⟩
      intro node hnode other hother
      rw [List.mem_singleton] at hother
      rintro rfl
      rw [hother] at hnode
      exact hseen hnode
    · rw [List.length_append, List.length_singleton]
      exact hroom
    · intro node hnode
      rcases List.mem_append.mp hnode with hold | hnew
      · obtain ⟨j, hj, howner⟩ := hmet node hold
        exact ⟨j, by omega, howner⟩
      · exact ⟨i, Nat.lt_succ_self i, (List.mem_singleton.mp hnew).symm⟩
    · intro j hj
      rw [List.mem_append]
      rcases Nat.lt_succ_iff_lt_or_eq.mp hj with hlt | rfl
      · exact Or.inl (hall j hlt)
      · exact Or.inr List.mem_cons_self

theorem walk_spec (fuel : ℕ) {i : ℕ} {out : List Bytes} (hcollected : Collected r start n i out) :
    ∃ last, Collected r start n last (r.walk start n fuel i out) ∧ last ≤ i + fuel ∧
      ((r.walk start n fuel i out).length = n ∨ last = i + fuel) ∧
      out <+: r.walk start n fuel i out := by
  induction fuel generalizing i out with
  | zero => exact ⟨i, hcollected, le_rfl, Or.inr rfl, List.prefix_rfl⟩
  | succ fuel ih =>
      simp only [walk]
      by_cases hroom : out.length < n
      · rw [if_pos hroom]
        obtain ⟨last, hlast, hle, hstop, hfirst⟩ := ih (hcollected.next hroom)
        refine ⟨last, hlast, by omega, hstop.imp_right (by omega), ?_⟩
        apply List.IsPrefix.trans _ hfirst
        split_ifs
        · exact List.prefix_rfl
        · exact List.prefix_append out _
      · rw [if_neg hroom]
        have hfull : out.length = n := le_antisymm hcollected.length_le (not_lt.mp hroom)
        exact ⟨i, hcollected, by omega, Or.inl hfull, List.prefix_rfl⟩

theorem exists_turn {length start k : ℕ} (hstart : start < length) (hk : k < length) :
    ∃ j < length, (start + j) % length = k := by
  by_cases hle : start ≤ k
  · refine ⟨k - start, by omega, ?_⟩
    rw [Nat.add_sub_cancel' hle, Nat.mod_eq_of_lt hk]
  · refine ⟨k + length - start, by omega, ?_⟩
    have hsum : start + (k + length - start) = k + length := by omega
    rw [hsum, Nat.add_mod_right, Nat.mod_eq_of_lt hk]

theorem mem_owning_iff (hsound : r.Sound r.replicas) {node : Bytes} :
    node ∈ r.owning ↔ ∃ k < r.ring.length, r.ownerAt k = node := by
  simp only [owning, Finset.mem_filter]
  constructor
  · rintro ⟨_, h, hin, hlookup⟩
    obtain ⟨k, hk, rfl⟩ := List.mem_iff_getElem.mp hin
    rw [ownerAt_of_sound hsound hk] at hlookup
    exact ⟨k, hk, Option.some.inj hlookup⟩
  · rintro ⟨k, hk, rfl⟩
    have hlookup := ownerAt_of_sound hsound hk
    exact ⟨(hsound.member _ _ hlookup).1, r.ring[k], List.getElem_mem hk, hlookup⟩

theorem walk_complete (hsound : r.Sound r.replicas) (hstart : start < r.ring.length)
    (hwanted : 0 < n) :
    let out := r.walk start n r.ring.length 0 []
    out.Nodup ∧ (∀ node ∈ out, node ∈ r.owning) ∧ out.length = min n r.owning.card ∧
      out.head? = some (r.ownerAt start) := by
  intro out
  have hempty : Collected r start n 0 [] :=
    ⟨List.nodup_nil, Nat.zero_le n, fun _ hnode => absurd hnode List.not_mem_nil,
      fun j hj => absurd hj (Nat.not_lt_zero j)⟩
  have hpos : 0 < r.ring.length := by omega
  obtain ⟨last, hlast, hle, hstop, _⟩ := walk_spec r.ring.length hempty
  have hsubset : ∀ node ∈ out, node ∈ r.owning := by
    intro node hnode
    obtain ⟨j, _, rfl⟩ := hlast.met node hnode
    rw [mem_owning_iff hsound]
    exact ⟨_, Nat.mod_lt _ hpos, rfl⟩
  have hcard : out.length ≤ r.owning.card := by
    rw [← List.toFinset_card_of_nodup hlast.nodup]
    exact Finset.card_le_card fun node hnode => hsubset node (List.mem_toFinset.mp hnode)
  refine ⟨hlast.nodup, hsubset, ?_, ?_⟩
  · rcases hstop with hfull | hround
    · have hlength : out.length = n := hfull
      omega
    · have hall : r.owning.card ≤ out.length := by
        rw [← List.toFinset_card_of_nodup hlast.nodup]
        apply Finset.card_le_card
        intro node hnode
        rw [mem_owning_iff hsound] at hnode
        obtain ⟨k, hk, rfl⟩ := hnode
        obtain ⟨j, hj, hturn⟩ := exists_turn hstart hk
        rw [List.mem_toFinset, ← hturn]
        exact hlast.all j (by omega)
      have hlength := hlast.length_le
      have heq : out.length = r.owning.card := le_antisymm hcard hall
      change out.length ≤ n at hlength
      omega
  · obtain ⟨length, hlength⟩ : ∃ length, r.ring.length = length + 1 :=
      ⟨r.ring.length - 1, by omega⟩
    have hmod : (start + 0) % r.ring.length = start := Nat.mod_eq_of_lt hstart
    have hfirst : Collected r start n 1 [r.ownerAt start] := by
      have hnext := hempty.next hwanted
      rw [hmod, if_neg List.not_mem_nil] at hnext
      exact hnext
    have hturn : out = r.walk start n length 1 [r.ownerAt start] := by
      have hroom : ([] : List Bytes).length < n := hwanted
      simp only [out]
      rw [hlength, walk, if_pos hroom, hmod]
      rfl
    obtain ⟨_, _, _, _, rest, hrest⟩ := walk_spec length hfirst
    rw [hturn, ← hrest]
    rfl

theorem getN_complete (hsound : r.Sound r.replicas) (hne : r.ring ≠ []) {wanted : ℤ}
    (hwanted : 1 ≤ wanted) (key : Bytes) :
    (r.getN key wanted).Nodup ∧ (∀ node ∈ r.getN key wanted, node ∈ r.nodes) ∧
      (r.getN key wanted).length = min wanted.toNat r.owning.card ∧
      (r.getN key wanted).head? = r.get key := by
  obtain ⟨hlt, _⟩ := isNext_index r.sorted hne (hashKey key)
  have hsubset : r.owning ⊆ r.nodes := Finset.filter_subset _ _
  have hcard := Finset.card_le_card hsubset
  have hsome : 0 < r.owning.card := by
    rw [Finset.card_pos]
    exact ⟨_, (mem_owning_iff hsound).mpr ⟨_, hlt, rfl⟩⟩
  have hgetN : r.getN key wanted = r.walk (r.search (hashKey key))
      (if (r.nodes.card : ℤ) < wanted then r.nodes.card else wanted.toNat)
      r.ring.length 0 [] := by
    apply if_neg
    rintro (hnil | hle)
    · exact hne hnil
    · omega
  have hcount : 0 < if (r.nodes.card : ℤ) < wanted then r.nodes.card else wanted.toNat := by
    split_ifs <;> omega
  obtain ⟨hnodup, howning, hlength, hhead⟩ := walk_complete hsound hlt hcount
  rw [hgetN]
  refine ⟨hnodup, fun node hnode => hsubset (howning node hnode), ?_, ?_⟩
  · rw [search, hlength]
    split_ifs <;> omega
  · rw [search, hhead, get, if_neg hne]
    rfl

theorem getN_of_nil (hnil : r.ring = []) (key : Bytes) (wanted : ℤ) : r.getN key wanted = [] :=
  if_pos (Or.inl hnil)

theorem owning_of_nil (hnil : r.ring = []) : r.owning = ∅ := by
  apply Finset.filter_eq_empty_iff.mpr
  rintro node _ ⟨h, hin, _⟩
  rw [hnil] at hin
  exact absurd hin List.not_mem_nil

theorem owning_of_faithful (hsound : r.Sound r.replicas) (hfaithful : r.Faithful r.replicas) :
    r.owning = r.nodes := by
  apply Finset.filter_eq_self.mpr
  intro node hnode
  obtain ⟨h, hpoint⟩ := List.exists_mem_of_ne_nil _ (r.points_ne_nil node)
  have hlookup := hfaithful node hnode h hpoint
  refine ⟨h, ?_, hlookup⟩
  rw [hsound.owned, ← AList.lookup_isSome, hlookup]
  rfl

theorem owning_of_same_points (replicas : ℤ) {a b : Bytes} (heq : hashKey a = hashKey b)
    (hne : a ≠ b) : (((new replicas).add [a]).add [b]).owning = {b} := by
  have hsound : (((new replicas).add [a]).add [b]).Sound (new replicas).replicas :=
    sound_add (r := (new replicas).add [a]) (sound_add (sound_new replicas) [a]) [b]
  rw [Finset.eq_singleton_iff_unique_mem]
  constructor
  · have hget := get_of_same_points replicas heq hne []
    have hnonempty : (((new replicas).add [a]).add [b]).ring ≠ [] := by
      intro hnil
      rw [get, if_pos hnil] at hget
      contradiction
    obtain ⟨p, node, hnext, hlookup, _⟩ := get_of_sound hsound hnonempty []
    rw [owner_of_same_points replicas heq hne hlookup] at hlookup
    exact Finset.mem_filter.mpr ⟨(hsound.member p b hlookup).1, p, hnext.1, hlookup⟩
  · intro node hnode
    obtain ⟨_, h, _, hlookup⟩ := Finset.mem_filter.mp hnode
    exact owner_of_same_points replicas heq hne hlookup

/-! ## The walk as a list -/

def met (r : Ring) (start i fuel : ℕ) : List Bytes :=
  (List.range' i fuel).map fun j => r.ownerAt ((start + j) % r.ring.length)

theorem met_succ (r : Ring) (start i fuel : ℕ) :
    r.met start i (fuel + 1) =
      r.ownerAt ((start + i) % r.ring.length) :: r.met start (i + 1) fuel := by
  simp only [met, List.range'_succ, List.map_cons]

theorem walk_eq_take (fuel : ℕ) {i : ℕ} {out : List Bytes} (hlength : out.length ≤ n) :
    r.walk start n fuel i out =
      (out ++ ((r.met start i fuel).filter (· ∉ out)).eraseDups).take n := by
  induction fuel generalizing i out with
  | zero => simp [walk, met, List.take_of_length_le hlength]
  | succ fuel ih =>
      rw [walk, met_succ]
      set node := r.ownerAt ((start + i) % r.ring.length)
      by_cases hroom : out.length < n
      · rw [if_pos hroom]
        dsimp only
        by_cases hseen : node ∈ out
        · rw [if_pos hseen, ih hlength, List.filter_cons_of_neg (by simpa using hseen)]
        · have hlonger : (out ++ [node]).length ≤ n := by
            rw [List.length_append, List.length_singleton]
            exact hroom
          have hothers : ((r.met start (i + 1) fuel).filter (· ∉ out)).filter (fun b => !b == node)
              = (r.met start (i + 1) fuel).filter (· ∉ out ++ [node]) := by
            rw [List.filter_filter]
            apply List.filter_congr
            intro other _
            by_cases heq : other = node <;> simp [heq]
          rw [if_neg hseen, ih hlonger, List.filter_cons_of_pos (by simpa using hseen),
            List.eraseDups_cons, hothers, List.append_assoc]
          rfl
      · have hfull : out.length = n := le_antisymm hlength (not_lt.mp hroom)
        rw [if_neg hroom, ← hfull, List.take_left]

theorem met_eq_clockwise (hsound : r.Sound r.replicas) (position : ℕ) :
    r.met (r.search position) 0 r.ring.length =
      (clockwise r.ring position).filterMap r.owners.lookup := by
  have howners : ∀ l : List ℕ, (∀ h ∈ l, h ∈ r.ring) →
      l.filterMap r.owners.lookup = l.map fun h => (r.owners.lookup h).getD [] := by
    intro l hl
    rw [← List.filterMap_eq_map]
    apply List.filterMap_congr
    intro h hin
    have howned := (hsound.owned h).mp (hl h hin)
    rw [← AList.lookup_isSome] at howned
    obtain ⟨node, hlookup⟩ := Option.isSome_iff_exists.mp howned
    simp [hlookup]
  rw [clockwise_eq_rotate r.sorted, howners _ fun h hin => List.mem_rotate.mp hin]
  apply List.ext_getElem
  · simp [met]
  · intro k hk hk'
    have hlt : k < r.ring.length := by simpa [met] using hk
    have hmod : (k + index r.ring position) % r.ring.length < r.ring.length :=
      Nat.mod_lt _ (by omega)
    simp only [met, List.getElem_map, List.getElem_range', Nat.zero_add, Nat.one_mul]
    rw [List.getElem_rotate, ownerAt, search, Nat.add_comm, List.getElem?_eq_getElem hmod]
    rfl

/-- The different owners in the order in which they are met clockwise. -/
def around (r : Ring) (key : Bytes) : List Bytes :=
  ((clockwise r.ring (hashKey key)).filterMap r.owners.lookup).eraseDups

theorem getN_eq_take (hsound : r.Sound r.replicas) (key : Bytes) (wanted : ℤ) :
    r.getN key wanted = (r.around key).take wanted.toNat := by
  by_cases hnil : r.ring = []
  · simp [getN_of_nil hnil, around, hnil, clockwise]
  by_cases hnone : wanted ≤ 0
  · have hzero : wanted.toNat = 0 := Int.toNat_of_nonpos hnone
    rw [getN, if_pos (Or.inr hnone), hzero, List.take_zero]
  · have hwalk : ∀ enough : ℕ, r.walk (r.search (hashKey key)) enough r.ring.length 0 [] =
        (r.around key).take enough := by
      intro enough
      rw [walk_eq_take _ (Nat.zero_le enough), met_eq_clockwise hsound]
      simp [around]
    rw [getN, if_neg (not_or.mpr ⟨hnil, hnone⟩)]
    simp only [hwalk]
    split_ifs with hfew
    · obtain ⟨hlt, _⟩ := isNext_index r.sorted hnil (hashKey key)
      obtain ⟨_, _, hlength, _⟩ := walk_complete (n := wanted.toNat) hsound hlt (by omega)
      have hcard : r.owning.card ≤ r.nodes.card := Finset.card_le_card (Finset.filter_subset _ _)
      have hshort : ((r.around key).take wanted.toNat).length ≤ r.nodes.card := by
        have hlength' := hlength
        rw [← search, hwalk] at hlength'
        omega
      rw [List.take_eq_take_iff]
      rw [List.length_take] at hshort
      omega
    · rfl

theorem sound_reached (replicas : ℤ) (ops : List RingOp) :
    ((new replicas).applyAll ops).Sound ((new replicas).applyAll ops).replicas := by
  rw [replicas_applyAll]
  exact sound_applyAll (sound_new replicas) ops

/-- A lookup is the clockwise walk from the checksum of the key: over a sorted
list, in which every point has a member for its owner, `Get` gives the owner of
the next point and `GetN` the first different owners. -/
theorem lookups_clockwise (replicas : ℤ) (ops : List RingOp) (key : Bytes) (n : ℤ) :
    let r := (new replicas).applyAll ops
    r.ring.Pairwise (· ≤ ·) ∧
      (∀ h ∈ r.ring, ∃ node ∈ r.nodes, r.owners.lookup h = some node) ∧
      (r.get key = none ↔ r.ring = []) ∧
      (∀ node, r.get key = some node ↔ ∃ point,
        IsNext {h | h ∈ r.ring} (hashKey key) point ∧ r.owners.lookup point = some node) ∧
      r.getN key n = (r.around key).take n.toNat ∧
      (r.getN key n).Nodup ∧
      (r.getN key n).length = min n.toNat r.owning.card ∧
      r.getN key 1 = (r.get key).toList ∧
      r.getN key n <+: r.getN key (n + 1) := by
  intro r
  have hsound : r.Sound r.replicas := sound_reached replicas ops
  have howner : ∀ h ∈ r.ring, ∃ node ∈ r.nodes, r.owners.lookup h = some node := by
    intro h hin
    have howned := (hsound.owned h).mp hin
    rw [← AList.lookup_isSome] at howned
    obtain ⟨node, hlookup⟩ := Option.isSome_iff_exists.mp howned
    exact ⟨node, (hsound.member h node hlookup).1, hlookup⟩
  have hcounts : (r.getN key n).Nodup ∧ (r.getN key n).length = min n.toNat r.owning.card := by
    by_cases hnil : r.ring = []
    · rw [getN_of_nil hnil, owning_of_nil hnil]
      exact ⟨List.nodup_nil, (Nat.min_zero _).symm⟩
    by_cases hone : 1 ≤ n
    · obtain ⟨hnodup, _, hlength, _⟩ := getN_complete hsound hnil hone key
      exact ⟨hnodup, hlength⟩
    · have hzero : n.toNat = 0 := Int.toNat_of_nonpos (by omega)
      rw [getN_eq_take hsound, hzero, List.take_zero]
      exact ⟨List.nodup_nil, (Nat.zero_min _).symm⟩
  refine ⟨r.sorted, howner, ?_, ?_, getN_eq_take hsound key n, hcounts.1, hcounts.2, ?_, ?_⟩
  · unfold get
    split_ifs with hnil <;> simp [hnil]
  · intro node
    constructor
    · intro hnode
      have hne : r.ring ≠ [] := by
        intro hnil
        rw [get, if_pos hnil] at hnode
        contradiction
      obtain ⟨point, other, hnext, hlookup, hget⟩ := get_of_sound hsound hne key
      rw [hget] at hnode
      exact ⟨point, hnext, hlookup.trans hnode⟩
    · rintro ⟨point, hnext, hlookup⟩
      exact get_eq_of_next hsound hnext hlookup
  · by_cases hnil : r.ring = []
    · rw [getN_of_nil hnil, get, if_pos hnil]
      rfl
    · obtain ⟨_, _, hlength, hhead⟩ := getN_complete hsound hnil le_rfl key
      obtain ⟨_, node, _, _, hget⟩ := get_of_sound hsound hnil key
      rw [hget] at hhead ⊢
      obtain ⟨rest, hlist⟩ := List.head?_eq_some_iff.mp hhead
      rw [hlist] at hlength ⊢
      have hrest : rest.length = 0 := by
        rw [List.length_cons] at hlength
        omega
      rw [List.length_eq_zero_iff.mp hrest]
      rfl
  · rw [getN_eq_take hsound, getN_eq_take hsound]
    apply List.take_prefix_take_left
    omega

/-! ## Adding nodes -/

theorem lookup_foldl_addNode {replicas : ℕ} (t : Table) (added : List Bytes) (h : ℕ) :
    (added.foldl (Table.addNode replicas) t).owners.lookup h = t.owners.lookup h ∨
      ∃ node ∈ added, node ∉ t.nodes ∧
        (added.foldl (Table.addNode replicas) t).owners.lookup h = some node := by
  induction added generalizing t with
  | nil => exact Or.inl rfl
  | cons first rest ih =>
      rw [List.foldl_cons]
      rcases ih (t.addNode replicas first) with hsame | ⟨node, hnode, hnew, hlookup⟩
      · rw [hsame, Table.lookup_addNode]
        split_ifs with hfirst
        · exact Or.inr ⟨first, List.mem_cons_self, hfirst.1, rfl⟩
        · exact Or.inl rfl
      · rw [Table.nodes_addNode, Finset.mem_insert, not_or] at hnew
        exact Or.inr ⟨node, List.mem_cons_of_mem _ hnode, hnew.2, hlookup⟩

theorem add_of_subset {added : List Bytes} (hpresent : ∀ node ∈ added, node ∈ r.nodes) :
    r.add added = r := by
  have hfold : added.foldl (Table.addNode r.replicas) r.toTable = r.toTable := by
    induction added with
    | nil => rfl
    | cons first rest ih =>
        rw [List.foldl_cons, Table.addNode, if_pos (hpresent first List.mem_cons_self)]
        exact ih fun node hnode => hpresent node (List.mem_cons_of_mem _ hnode)
  have hring : r.ring.insertionSort (· ≤ ·) = r.ring := r.sorted.insertionSort_eq
  simp only [add, hfold, hring]

/-- An added node takes keys over, and no other node does: a key stays where it
was or goes to a node that the call added. -/
theorem get_add (replicas : ℤ) (ops : List RingOp) (added : List Bytes) (key : Bytes) :
    let r := (new replicas).applyAll ops
    ((r.add added).get key = r.get key ∨
        ∃ node ∈ added, node ∉ r.nodes ∧ (r.add added).get key = some node) ∧
      ((∀ node ∈ added, node ∈ r.nodes) → (r.add added).get key = r.get key ∧
        ∀ n, (r.add added).getN key n = r.getN key n) := by
  intro r
  have hsound : r.Sound r.replicas := sound_reached replicas ops
  have hsound' : (r.add added).Sound (r.add added).replicas := sound_add hsound added
  have hsubset : {h | h ∈ r.ring} ⊆ {h | h ∈ (r.add added).ring} := by
    intro h hin
    have howned := (hsound.owned h).mp hin
    rw [← AList.lookup_isSome] at howned
    apply (hsound'.owned h).mpr
    rw [← AList.lookup_isSome]
    rcases lookup_foldl_addNode r.toTable added h with hsame | ⟨node, _, _, hlookup⟩
    · exact (congrArg Option.isSome hsame).trans howned
    · exact congrArg Option.isSome hlookup
  constructor
  · by_cases hnil : (r.add added).ring = []
    · have hbefore : r.ring = [] := by
        rw [List.eq_nil_iff_forall_not_mem] at hnil ⊢
        exact fun h hin => hnil h (hsubset hin)
      left
      rw [get, get, if_pos hnil, if_pos hbefore]
    · obtain ⟨p, node, hnext, hlookup, hget⟩ := get_of_sound hsound' hnil key
      rcases lookup_foldl_addNode r.toTable added p with hsame | ⟨other, hother, hnew, hadded⟩
      · have hold : r.owners.lookup p = some node := by
          rw [← hsame]
          exact hlookup
        have howned : p ∈ r.ring := by
          rw [hsound.owned, ← AList.lookup_isSome, hold]
          rfl
        left
        rw [hget]
        exact (get_eq_of_next hsound (hnext.subset hsubset howned) hold).symm
      · right
        refine ⟨other, hother, hnew, ?_⟩
        rw [hget, ← hlookup]
        exact hadded
  · intro hpresent
    rw [add_of_subset hpresent]
    exact ⟨rfl, fun _ => rfl⟩

theorem get_add_again :
    (((new 3).applyAll [.add [[97], [98]]]).add [[98], [97]]).get [107] =
      ((new 3).applyAll [.add [[97], [98]]]).get [107] := by
  refine ((get_add 3 [.add [[97], [98]]] [[98], [97]] [107]).2 ?_).1
  have hnodes : ((new 3).applyAll [.add [[97], [98]]]).nodes = {[97], [98]} :=
    nodes_add (new 3) [[97], [98]]
  intro node hnode
  rw [hnodes]
  simpa [or_comm] using hnode

end Ring

end HashRing
end DistCache
