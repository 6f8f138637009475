import DistCache.Transition
import DistCache.CacheShard

/-!
# Lock leases

The lock manager keeps one lease for a key: a token, its owner and the time at which it
runs out.  A lease that has run out stays in the table until somebody else takes the
key, and `Release` accepts its token.

The lease in the table is that of the last successful `Acquire`.  Since `newToken` never
draws a token twice, a token whose lease has left the table never comes back.
-/

namespace DistCache
namespace Locks

open Transition

/-! ## The manager -/

structure Lease where
  token : Bytes
  owner : Bytes
  expireAt : ℤ
  deriving DecidableEq, Repr

structure Manager where
  locks : AList (fun _ : Key => Lease)

namespace Manager

def new : Manager := ⟨∅⟩

def acquire (m : Manager) (now : ℤ) (key : Key) (owner : Bytes) (ttl : ℤ) (tok : Bytes) :
    Manager × Option Bytes :=
  let granted : Manager × Option Bytes :=
    (⟨m.locks.insert key ⟨tok, owner, int64 (now + ttl)⟩⟩, some tok)
  match m.locks.lookup key with
  | none => granted
  | some l => if now < l.expireAt ∧ l.owner ≠ owner then (m, none) else granted

def release (m : Manager) (key : Key) (token : Bytes) : Manager × Bool :=
  match m.locks.lookup key with
  | none => (m, false)
  | some l => if l.token ≠ token then (m, false) else (⟨m.locks.erase key⟩, true)

def renew (m : Manager) (now : ℤ) (key : Key) (token : Bytes) (ttl : ℤ) : Manager × Bool :=
  match m.locks.lookup key with
  | none => (m, false)
  | some l =>
      if l.token ≠ token ∨ l.expireAt ≤ now then (m, false)
      else (⟨m.locks.insert key { l with expireAt := int64 (now + ttl) }⟩, true)

def isLocked (m : Manager) (now : ℤ) (key : Key) : Bool :=
  match m.locks.lookup key with
  | none => false
  | some l => now < l.expireAt

end Manager

/-! ## Calls -/

inductive Call where
  | acquire (now : ℤ) (key : Key) (owner : Bytes) (ttl : ℤ) (tok : Bytes)
  | release (key : Key) (token : Bytes)
  | renew (now : ℤ) (key : Key) (token : Bytes) (ttl : ℤ)
  | isLocked (now : ℤ) (key : Key)
  deriving DecidableEq

def step (m : Manager) : Call → Option Manager
  | .acquire now key owner ttl tok => some (m.acquire now key owner ttl tok).1
  | .release key token => some (m.release key token).1
  | .renew now key token ttl => some (m.renew now key token ttl).1
  | .isLocked _ _ => some m

def issues (m : Manager) : Call → List (Key × Bytes)
  | .acquire now key owner ttl tok =>
      ((m.acquire now key owner ttl tok).2.map fun token => (key, token)).toList
  | _ => []

def latest (key : Key) (issued : List (Key × Bytes)) : Option Bytes :=
  (issued.filter fun entry => entry.1 = key).getLast?.map Prod.snd

def Manager.Stores (m : Manager) (key : Key) (token : Bytes) : Prop :=
  ∃ l, m.locks.lookup key = some l ∧ l.token = token

/-- The call takes the lease of the token out of the table: it releases it, or
it is a successful `Acquire` on the same key, by the same owner or after the
lease has run out. -/
def Ends (m : Manager) (token : Bytes) : Call → Prop
  | .release key other => m.Stores key token ∧ other = token
  | .acquire now key owner ttl tok =>
      m.Stores key token ∧ (m.acquire now key owner ttl tok).2 ≠ none
  | _ => False

/-- Some call of the history has taken the lease of the token out. -/
def Retired (m : Manager) (calls : List Call) (token : Bytes) : Prop :=
  ∃ before call after middle, calls = before ++ call :: after ∧
    run step m before = some middle ∧ Ends middle token call

/-! ## The tokens that have been issued -/

variable {key other : Key} {token : Bytes} {issued : List (Key × Bytes)}

theorem latest_snoc_self : latest key (issued ++ [(key, token)]) = some token := by
  simp [latest, List.filter_append]

theorem latest_snoc_other (hne : other ≠ key) :
    latest key (issued ++ [(other, token)]) = latest key issued := by
  simp [latest, List.filter_append, hne]

theorem mem_of_latest (hlatest : latest key issued = some token) : (key, token) ∈ issued := by
  unfold latest at hlatest
  obtain ⟨entry, hlast, rfl⟩ := Option.map_eq_some_iff.mp hlatest
  have hmem := List.mem_of_getLast? hlast
  rw [List.mem_filter, decide_eq_true_eq] at hmem
  rw [← hmem.2]
  exact hmem.1

theorem key_eq_of_nodup (hfresh : (issued.map Prod.snd).Nodup)
    (hfirst : (key, token) ∈ issued) (hsecond : (other, token) ∈ issued) : key = other := by
  have heq := List.inj_on_of_nodup_map hfresh hfirst hsecond rfl
  exact congrArg Prod.fst heq

/-! ## What a call does to the table -/

section Step

variable {m next : Manager} {call : Call}

theorem acquire_cases (m : Manager) (now : ℤ) (key : Key) (owner : Bytes) (ttl : ℤ) (tok : Bytes) :
    m.acquire now key owner ttl tok = (m, none) ∨
      m.acquire now key owner ttl tok =
        (⟨m.locks.insert key ⟨tok, owner, int64 (now + ttl)⟩⟩, some tok) := by
  unfold Manager.acquire
  cases hlookup : m.locks.lookup key with
  | none => exact Or.inr rfl
  | some l =>
      dsimp only
      split_ifs
      · exact Or.inl rfl
      · exact Or.inr rfl

theorem renew_cases (m : Manager) (now : ℤ) (key : Key) (token : Bytes) (ttl : ℤ) :
    m.renew now key token ttl = (m, false) ∨
      ∃ l, m.locks.lookup key = some l ∧ m.renew now key token ttl =
        (⟨m.locks.insert key { l with expireAt := int64 (now + ttl) }⟩, true) := by
  unfold Manager.renew
  cases hlookup : m.locks.lookup key with
  | none => exact Or.inl rfl
  | some l =>
      dsimp only
      split_ifs
      · exact Or.inl rfl
      · exact Or.inr ⟨l, rfl, rfl⟩

theorem stores_insert {l : Lease} :
    (⟨m.locks.insert key l⟩ : Manager).Stores other token ↔
      if other = key then l.token = token else m.Stores other token := by
  unfold Manager.Stores
  by_cases hkey : other = key
  · subst hkey
    simp
  · simp [hkey, AList.lookup_insert_ne hkey]

theorem stores_erase :
    (⟨m.locks.erase key⟩ : Manager).Stores other token ↔ other ≠ key ∧ m.Stores other token := by
  unfold Manager.Stores
  by_cases hkey : other = key
  · subst hkey
    simp
  · simp [hkey, AList.lookup_erase_ne hkey]

theorem stores_release (m : Manager) (key other : Key) (given token : Bytes)
    (hstores : (m.release key given).1.Stores other token) :
    m.Stores other token ∧ (m.Stores key given → other ≠ key) := by
  unfold Manager.release at hstores
  cases hlookup : m.locks.lookup key with
  | none =>
      simp only [hlookup] at hstores
      refine ⟨hstores, ?_⟩
      rintro ⟨l, hl, _⟩
      rw [hlookup] at hl
      contradiction
  | some l =>
      by_cases htoken : l.token = given
      · simp only [hlookup, htoken, ne_eq, not_true_eq_false, if_false] at hstores
        obtain ⟨hne, hheld⟩ := stores_erase.mp hstores
        exact ⟨hheld, fun _ => hne⟩
      · simp only [hlookup, ne_eq, htoken, not_false_eq_true, if_true] at hstores
        refine ⟨hstores, ?_⟩
        rintro ⟨other, hother, hgiven⟩
        rw [hlookup] at hother
        cases hother
        exact absurd hgiven htoken

theorem stores_renew (m : Manager) (now : ℤ) (key other : Key) (given token : Bytes) (ttl : ℤ)
    (hstores : (m.renew now key given ttl).1.Stores other token) : m.Stores other token := by
  rcases renew_cases m now key given ttl with hkept | ⟨l, hlookup, hrenewed⟩
  · rw [hkept] at hstores
    exact hstores
  · rw [hrenewed, stores_insert] at hstores
    by_cases hkey : other = key
    · rw [if_pos hkey] at hstores
      rw [hkey]
      exact ⟨l, hlookup, hstores⟩
    · rw [if_neg hkey] at hstores
      exact hstores

theorem step_cases (hstep : step m call = some next) :
    (issues m call = [] ∧ ∀ key token, next.Stores key token → m.Stores key token) ∨
      ∃ key tok, issues m call = [(key, tok)] ∧
        ∀ other token, next.Stores other token ↔
          if other = key then tok = token else m.Stores other token := by
  cases call with
  | acquire now key owner ttl tok =>
      simp only [step, Option.some.injEq] at hstep
      subst hstep
      rcases acquire_cases m now key owner ttl tok with hrefused | hgranted
      · left
        simp only [issues, hrefused]
        exact ⟨rfl, fun _ _ hstores => hstores⟩
      · right
        refine ⟨key, tok, ?_, ?_⟩
        · simp only [issues, hgranted]
          rfl
        · intro other token
          rw [hgranted, stores_insert]
  | release key given =>
      simp only [step, Option.some.injEq] at hstep
      subst hstep
      exact Or.inl ⟨rfl, fun other token hstores =>
        (stores_release m key other given token hstores).1⟩
  | renew now key given ttl =>
      simp only [step, Option.some.injEq] at hstep
      subst hstep
      exact Or.inl ⟨rfl, fun other token hstores =>
        stores_renew m now key other given token ttl hstores⟩
  | isLocked now key =>
      simp only [step, Option.some.injEq] at hstep
      subst hstep
      exact Or.inl ⟨rfl, fun _ _ hstores => hstores⟩

/-! ## The lease in the table is the latest -/

/-- The tokens in the table are those of the last successful calls. -/
def Manager.Current (m : Manager) (issued : List (Key × Bytes)) : Prop :=
  ∀ key token, m.Stores key token → latest key issued = some token

theorem current_new : Manager.new.Current [] := by
  rintro key token ⟨l, hlookup, _⟩
  rw [Manager.new, AList.lookup_empty] at hlookup
  contradiction

theorem Manager.Current.step (hcurrent : m.Current issued) (hstep : step m call = some next) :
    next.Current (issued ++ issues m call) := by
  intro key token hstores
  rcases step_cases hstep with ⟨hissues, hkeep⟩ | ⟨given, tok, hissues, hiff⟩
  · rw [hissues, List.append_nil]
    exact hcurrent key token (hkeep key token hstores)
  · rw [hissues]
    rw [hiff] at hstores
    by_cases hkey : key = given
    · rw [if_pos hkey] at hstores
      rw [← hkey, hstores, latest_snoc_self]
    · rw [if_neg hkey] at hstores
      rw [latest_snoc_other (Ne.symm hkey)]
      exact hcurrent key token hstores

/-! ## A token that has left the table -/

/-- The token has been issued, and no lease has it. -/
structure Manager.Gone (m : Manager) (issued : List (Key × Bytes)) (token : Bytes) : Prop where
  issued : token ∈ issued.map Prod.snd
  absent : ∀ key, ¬ m.Stores key token

theorem fresh_of_snoc {tok : Bytes}
    (hfresh : ((issued ++ [(key, tok)]).map Prod.snd).Nodup) : tok ∉ issued.map Prod.snd := by
  intro hmem
  rw [List.map_append, List.nodup_append] at hfresh
  exact hfresh.2.2 tok hmem tok List.mem_cons_self rfl

theorem Manager.Gone.step (hgone : m.Gone issued token) (hstep : Locks.step m call = some next)
    (hfresh : ((issued ++ issues m call).map Prod.snd).Nodup) :
    next.Gone (issued ++ issues m call) token := by
  constructor
  · rw [List.map_append, List.mem_append]
    exact Or.inl hgone.issued
  · intro key hstores
    rcases step_cases hstep with ⟨_, hkeep⟩ | ⟨given, tok, hissues, hiff⟩
    · exact hgone.absent key (hkeep key token hstores)
    · rw [hissues] at hfresh
      rw [hiff] at hstores
      by_cases hkey : key = given
      · rw [if_pos hkey] at hstores
        rw [hstores] at hfresh
        exact fresh_of_snoc hfresh hgone.issued
      · rw [if_neg hkey] at hstores
        exact hgone.absent key hstores

theorem ends_cases (hends : Ends m token call) (hstep : Locks.step m call = some next) :
    ∃ key, m.Stores key token ∧ ∀ other, next.Stores other token →
      (other ≠ key ∧ m.Stores other token) ∨ issues m call = [(key, token)] := by
  cases call with
  | acquire now key owner ttl tok =>
      obtain ⟨hheld, hgiven⟩ := hends
      simp only [Locks.step, Option.some.injEq] at hstep
      subst hstep
      refine ⟨key, hheld, ?_⟩
      intro other hstores
      rcases acquire_cases m now key owner ttl tok with hrefused | hgranted
      · rw [hrefused] at hgiven
        exact absurd rfl hgiven
      · rw [hgranted, stores_insert] at hstores
        by_cases hkey : other = key
        · rw [if_pos hkey] at hstores
          right
          simp only [issues, hgranted]
          rw [← hstores]
          rfl
        · rw [if_neg hkey] at hstores
          exact Or.inl ⟨hkey, hstores⟩
  | release key given =>
      obtain ⟨hheld, rfl⟩ := hends
      simp only [Locks.step, Option.some.injEq] at hstep
      subst hstep
      refine ⟨key, hheld, ?_⟩
      intro other hstores
      obtain ⟨hbefore, hne⟩ := stores_release m key other given given hstores
      exact Or.inl ⟨hne hheld, hbefore⟩
  | renew now key given ttl => exact absurd hends not_false
  | isLocked now key => exact absurd hends not_false

theorem nodup_of_append {more : List (Key × Bytes)}
    (hfresh : ((issued ++ more).map Prod.snd).Nodup) : (issued.map Prod.snd).Nodup := by
  rw [List.map_append] at hfresh
  exact hfresh.of_append_left

theorem gone_of_ends (hcurrent : m.Current issued) (hends : Ends m token call)
    (hstep : Locks.step m call = some next)
    (hfresh : ((issued ++ issues m call).map Prod.snd).Nodup) :
    next.Gone (issued ++ issues m call) token := by
  obtain ⟨key, hheld, hafter⟩ := ends_cases hends hstep
  have hissued : (key, token) ∈ issued := mem_of_latest (hcurrent key token hheld)
  have hmem : token ∈ issued.map Prod.snd := List.mem_map_of_mem hissued
  constructor
  · rw [List.map_append, List.mem_append]
    exact Or.inl hmem
  · intro other hstores
    rcases hafter other hstores with ⟨hne, hbefore⟩ | hissues
    · have hother : (other, token) ∈ issued := mem_of_latest (hcurrent other token hbefore)
      exact hne (key_eq_of_nodup (nodup_of_append hfresh) hother hissued)
    · rw [hissues] at hfresh
      exact fresh_of_snoc hfresh hmem

end Step

/-! ## Histories -/

variable {m : Manager} {calls : List Call}

theorem current_run (hrun : run step Manager.new calls = some m) :
    m.Current (observe step issues Manager.new calls) :=
  run_invariant_seen step issues (I := fun m issued => m.Current issued)
    (fun _ _ _ _ hcurrent hstep => hcurrent.step hstep) current_new hrun

theorem gone_of_retired (hrun : run step Manager.new calls = some m)
    (hfresh : ((observe step issues Manager.new calls).map Prod.snd).Nodup)
    (hretired : Retired Manager.new calls token) (key : Key) : ¬ m.Stores key token := by
  obtain ⟨before, call, after, middle, rfl, hbefore, hends⟩ := hretired
  obtain ⟨middle', hmiddle, hrest⟩ := (run_append_eq_some step).mp hrun
  rw [hbefore] at hmiddle
  cases hmiddle
  obtain ⟨next, hstep, hafter⟩ := (run_cons_eq_some step).mp hrest
  have hcurrent := current_run hbefore
  have hseen : observe step issues Manager.new (before ++ call :: after) =
      observe step issues Manager.new before ++ issues middle call ++
        observe step issues next after := by
    rw [observe_append step issues hbefore, observe, hstep, Option.elim_some, List.append_assoc]
  rw [hseen] at hfresh
  have hgone : ((observe step issues Manager.new before ++ issues middle call).map
      Prod.snd).Nodup → next.Gone (observe step issues Manager.new before ++ issues middle call)
        token := gone_of_ends hcurrent hends hstep
  have hlast := run_invariant_seen step issues
    (I := fun m issued => (issued.map Prod.snd).Nodup → m.Gone issued token)
    (fun _ _ _ _ hs hstep hfresh => (hs (nodup_of_append hfresh)).step hstep hfresh) hgone hafter
  exact (hlast hfresh).absent key

theorem stores_of_renew {now ttl : ℤ} (haccepted : (m.renew now key token ttl).2 = true) :
    m.Stores key token := by
  unfold Manager.renew at haccepted
  cases hlookup : m.locks.lookup key with
  | none => simp [hlookup] at haccepted
  | some l =>
      by_cases hrefused : l.token ≠ token ∨ l.expireAt ≤ now
      · simp [hlookup, if_pos hrefused] at haccepted
      · exact ⟨l, hlookup, not_not.mp (not_or.mp hrefused).1⟩

theorem stores_of_release (haccepted : (m.release key token).2 = true) : m.Stores key token := by
  unfold Manager.release at haccepted
  cases hlookup : m.locks.lookup key with
  | none => simp [hlookup] at haccepted
  | some l =>
      by_cases htoken : l.token = token
      · exact ⟨l, hlookup, htoken⟩
      · simp [hlookup, htoken] at haccepted

theorem acquire_of_held {l : Lease} {now ttl : ℤ} {owner tok : Bytes}
    (hlookup : m.locks.lookup key = some l) (hlive : now < l.expireAt) (howner : owner ≠ l.owner) :
    m.acquire now key owner ttl tok = (m, none) := by
  simp only [Manager.acquire, hlookup]
  exact if_pos ⟨hlive, Ne.symm howner⟩

/-- After any calls, `Renew` accepts on a key only the token of the last
successful `Acquire` on it; an `Acquire` by another owner than that of a lease
that has not run out is refused and changes nothing; and a token whose lease has
been released or replaced is refused everywhere. -/
theorem leases_exclude (hrun : run step Manager.new calls = some m)
    (hfresh : ((observe step issues Manager.new calls).map Prod.snd).Nodup) :
    (∀ key token now ttl, (m.renew now key token ttl).2 = true →
        latest key (observe step issues Manager.new calls) = some token) ∧
      (∀ key l now owner ttl tok, m.locks.lookup key = some l → now < l.expireAt →
        owner ≠ l.owner → m.acquire now key owner ttl tok = (m, none)) ∧
      ∀ token, Retired Manager.new calls token → ∀ key now ttl,
        (m.release key token).2 = false ∧ (m.renew now key token ttl).2 = false := by
  refine ⟨?_, ?_, ?_⟩
  · intro key token now ttl haccepted
    exact current_run hrun key token (stores_of_renew haccepted)
  · intro key l now owner ttl tok hlookup hlive howner
    exact acquire_of_held hlookup hlive howner
  · intro token hretired key now ttl
    have habsent := gone_of_retired hrun hfresh hretired key
    constructor
    · rw [Bool.eq_false_iff]
      exact fun haccepted => habsent (stores_of_release haccepted)
    · rw [Bool.eq_false_iff]
      exact fun haccepted => habsent (stores_of_renew haccepted)

/-- An owner takes its lock again, and the first token is worth nothing. -/
theorem leases_exclude_reacquired :
    ∃ m, run step Manager.new
        [.acquire 0 [107] [97] 10 [1], .acquire 5 [107] [98] 10 [2], .acquire 6 [107] [97] 10 [3],
          .isLocked 12 [107]] = some m ∧
      (m.release [107] [1]).2 = false ∧ (m.renew 7 [107] [1] 10).2 = false := by
  have hretired : Retired Manager.new
      [.acquire 0 [107] [97] 10 [1], .acquire 5 [107] [98] 10 [2], .acquire 6 [107] [97] 10 [3],
        .isLocked 12 [107]] [1] :=
    ⟨[.acquire 0 [107] [97] 10 [1], .acquire 5 [107] [98] 10 [2]], .acquire 6 [107] [97] 10 [3],
      [.isLocked 12 [107]], _, rfl, rfl, ⟨⟨[1], [97], 10⟩, rfl, rfl⟩, by decide⟩
  refine ⟨_, rfl, ?_⟩
  exact (leases_exclude (m := _) rfl (by decide +kernel)).2.2 [1] hretired [107] 7 10

/-! ## Who holds a lock -/

theorem release_iff (m : Manager) (key : Key) (token : Bytes) :
    (m.release key token).2 = true ↔ m.Stores key token := by
  refine ⟨stores_of_release, ?_⟩
  rintro ⟨l, hlookup, htoken⟩
  simp [Manager.release, hlookup, htoken]

theorem renew_iff (m : Manager) (now : ℤ) (key : Key) (token : Bytes) (ttl : ℤ) :
    (m.renew now key token ttl).2 = true ↔
      ∃ l, m.locks.lookup key = some l ∧ l.token = token ∧ now < l.expireAt := by
  unfold Manager.renew
  cases hlookup : m.locks.lookup key with
  | none => simp
  | some l =>
      by_cases hrefused : l.token ≠ token ∨ l.expireAt ≤ now
      · simp only [if_pos hrefused, Bool.false_eq_true, false_iff]
        rintro ⟨other, hother, htoken, hlive⟩
        cases hother
        rcases hrefused with hwrong | hpast
        · exact hwrong htoken
        · omega
      · simp only [if_neg hrefused, true_iff]
        rw [not_or, not_not, not_le] at hrefused
        exact ⟨l, rfl, hrefused⟩

theorem isLocked_iff (m : Manager) (now : ℤ) (key : Key) :
    m.isLocked now key = true ↔ ∃ l, m.locks.lookup key = some l ∧ now < l.expireAt := by
  unfold Manager.isLocked
  cases hlookup : m.locks.lookup key with
  | none => simp
  | some l => simp

/-- `Release` accepts a token exactly when `Renew` does and the key is locked, unless
the lease of that token is in the table and has run out: then `Release` alone accepts
it.  This is so in every state of the table and at every time. -/
theorem release_renew_agree_iff (m : Manager) (key : Key) (token : Bytes) (now ttl : ℤ) :
    ((m.release key token).2 = true ↔
        (m.renew now key token ttl).2 = true ∧ m.isLocked now key = true) ↔
      ∀ l, m.locks.lookup key = some l → l.token = token → now < l.expireAt := by
  rw [release_iff, renew_iff, isLocked_iff]
  constructor
  · intro hagree l hlookup htoken
    obtain ⟨⟨other, hother, -, hlive⟩, -⟩ := hagree.mp ⟨l, hlookup, htoken⟩
    rw [hlookup] at hother
    cases hother
    exact hlive
  · intro hlive
    constructor
    · rintro ⟨l, hlookup, htoken⟩
      have hnow := hlive l hlookup htoken
      exact ⟨⟨l, hlookup, htoken, hnow⟩, l, hlookup, hnow⟩
    · rintro ⟨⟨l, hlookup, htoken, -⟩, -⟩
      exact ⟨l, hlookup, htoken⟩

/-- A lease of 100 that was taken at 1000 is released at 1200. -/
theorem released_after_expiry :
    ∃ m, run step Manager.new [.acquire 1000 [107] [97] 100 [1]] = some m ∧
      (m.release [107] [1]).2 = true ∧ (m.renew 1200 [107] [1] 100).2 = false ∧
      m.isLocked 1200 [107] = false :=
  ⟨_, rfl, by decide +kernel, by decide +kernel, by decide +kernel⟩

end Locks
end DistCache
