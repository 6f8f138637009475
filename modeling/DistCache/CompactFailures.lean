import DistCache.BufferedWrites
import DistCache.DataDirectory

/-!
# A compaction that fails

`Compact` flushes and syncs the file, reads the records that are to stay, writes them to
a temporary file, closes the live handle, renames and opens the path again.  Each of
these calls may fail, except that reading is taken to succeed.

Up to the closing of the live handle a failure leaves the log as it was.  Behind it the
writer is left on a closed handle: no later record gets out of the buffer, and `Append`
reports this only if it flushes.
-/

namespace DistCache
namespace Persistence

open BufferedWrites

inductive SyncPolicy where
  | no
  | everySec
  | always
  deriving DecidableEq, Repr

inductive CompactCall where
  | flush
  | sync
  | openRead
  | create
  | write
  | tmpFlush
  | tmpSync
  | tmpClose
  | close
  | rename
  | reopen
  deriving DecidableEq, Repr

inductive CompactResult where
  | done
  | failed (call : CompactCall)
  | panicked
  deriving DecidableEq, Repr

def bufSize : ℕ := 64 * 1024

/-- The open log: the file at its path with the handle `f` and the writer `w`, and
the temporary file, if there is one. -/
structure AOF where
  chan : Channel UInt8
  policy : SyncPolicy
  tmp : Option Bytes

namespace AOF

/-! ## Appending -/

def onChan (a : AOF) (r : Channel UInt8 × Bool) : AOF × Bool := ({ a with chan := r.1 }, r.2)

def append (fs : ℕ → Fate) (a : AOF) (ev : Event) : AOF × Bool :=
  a.onChan (Channel.andThen (a.chan.write fs bufSize (encodeRecord ev)) fun c =>
    match a.policy with
    | .always => c.flushSync fs
    | _ => (c, true))

def sync (fs : ℕ → Fate) (a : AOF) : AOF × Bool := a.onChan (a.chan.flushSync fs)

def tick (fs : ℕ → Fate) (a : AOF) : AOF :=
  { a with chan := ((a.chan.flush fs).1.call fs).1 }

/-! ## Compacting -/

def call (fs : ℕ → Fate) (a : AOF) : AOF × Bool :=
  ({ a with chan := { a.chan with calls := a.chan.calls + 1 } }, fs a.chan.calls = .done)

def leaveTmp (a : AOF) (t : Channel UInt8) : AOF :=
  { a with
    chan := { a.chan with calls := t.calls }
    tmp := some t.file }

def remove (fs : ℕ → Fate) (a : AOF) : AOF :=
  { (a.call fs).1 with tmp := if (a.call fs).2 then none else a.tmp }

def abandon (fs : ℕ → Fate) (a : AOF) (t : Channel UInt8) : AOF :=
  ((a.leaveTmp t).call fs).1.remove fs

def closeFile (fs : ℕ → Fate) (a : AOF) : AOF × Bool :=
  ({ a with chan := { (a.chan.call fs).1 with live := false } }, (a.chan.call fs).2)

def rename (fs : ℕ → Fate) (a : AOF) : AOF × Bool :=
  match a.call fs, a.tmp with
  | (after, true), some file =>
      ({ after with
        chan := { after.chan with file := file }
        tmp := none }, true)
  | (after, _), _ => (after, false)

def writeRecords (fs : ℕ → Fate) : Channel UInt8 → List Event → Channel UInt8 × Bool
  | t, [] => (t, true)
  | t, ev :: rest =>
      Channel.andThen (t.write fs bufSize (encodeRecord ev)) fun t => writeRecords fs t rest

def swap (fs : ℕ → Fate) (a : AOF) : AOF × CompactResult :=
  match a.closeFile fs with
  | (a, false) => (a, .failed .close)
  | (a, true) =>
      match a.rename fs with
      | (a, false) => (a, .failed .rename)
      | (a, true) =>
          match a.call fs with
          | (a, false) => (a, .failed .reopen)
          | (a, true) => ({ a with chan := .fresh a.chan.file a.chan.calls }, .done)

def rewrite (fs : ℕ → Fate) (kept : List Event) (a : AOF) : AOF × CompactResult :=
  match a.call fs with
  | (a, false) => (a, .failed .create)
  | (a, true) =>
      match writeRecords fs (.fresh [] a.chan.calls) kept with
      | (t, false) => (a.abandon fs t, .failed .write)
      | (t, true) =>
          match t.flush fs with
          | (t, false) => (a.abandon fs t, .failed .tmpFlush)
          | (t, true) =>
              match t.call fs with
              | (t, false) => (a.abandon fs t, .failed .tmpSync)
              | (t, true) =>
                  match t.call fs with
                  | (t, false) => ((a.leaveTmp t).remove fs, .failed .tmpClose)
                  | (t, true) => (a.leaveTmp t).swap fs

def records (file : Bytes) (minSeqExclusive : ℕ) : List Event :=
  (readAOF file).events.filter fun ev => minSeqExclusive < ev.seq

def compact (fs : ℕ → Fate) (minSeqExclusive : ℕ) (a : AOF) : AOF × CompactResult :=
  match a.chan.flush fs with
  | (c, false) => ({ a with chan := c }, .failed .flush)
  | (c, true) =>
      match c.call fs with
      | (c, false) => ({ a with chan := c }, .failed .sync)
      | (c, true) =>
          match ({ a with chan := c } : AOF).call fs with
          | (a, false) => (a, .failed .openRead)
          | (a, true) =>
              if (readAOF a.chan.file).panicked then (a, .panicked)
              else a.rewrite fs (records a.chan.file minSeqExclusive)

/-! ## The exits of `Compact` -/

end AOF

def CompactCall.Late (call : CompactCall) : Prop :=
  call = .close ∨ call = .rename ∨ call = .reopen

instance (call : CompactCall) : Decidable call.Late := inferInstanceAs (Decidable (_ ∨ _))

namespace AOF

variable {fs : ℕ → Fate} {a b after : AOF} {minSeqExclusive : ℕ} {result : CompactResult}

structure Flushed (a b : AOF) : Prop where
  file : b.chan.file = a.chan.stream
  live : b.chan.live = true
  buf : b.chan.buf = []
  failed : b.chan.failed = false
  policy : b.policy = a.policy

structure Stranded (a b : AOF) : Prop where
  live : b.chan.live = false
  buf : b.chan.buf = []
  failed : b.chan.failed = false
  policy : b.policy = a.policy

inductive Exit (minSeqExclusive : ℕ) (a after : AOF) : CompactResult → Prop where
  | first (call : CompactCall) (hcall : call = .flush ∨ call = .sync) :
      Exit minSeqExclusive a after (.failed call)
  | panicked : Exit minSeqExclusive a after .panicked
  | early (call : CompactCall) (hcall : ¬ call.Late) (hflushed : Flushed a after) :
      Exit minSeqExclusive a after (.failed call)
  | late (call : CompactCall) (hcall : call.Late) (hstranded : Stranded a after)
      (hrecords : records after.chan.file minSeqExclusive =
        records a.chan.stream minSeqExclusive) :
      Exit minSeqExclusive a after (.failed call)
  | done (hfile : after.chan.file = encodeAll (records a.chan.stream minSeqExclusive))
      (hlive : after.chan.live = true) : Exit minSeqExclusive a after .done

theorem Flushed.call (hflushed : Flushed a b) (fs : ℕ → Fate) : Flushed a (b.call fs).1 :=
  ⟨hflushed.file, hflushed.live, hflushed.buf, hflushed.failed, hflushed.policy⟩

theorem Flushed.leaveTmp (hflushed : Flushed a b) (t : Channel UInt8) :
    Flushed a (b.leaveTmp t) :=
  ⟨hflushed.file, hflushed.live, hflushed.buf, hflushed.failed, hflushed.policy⟩

theorem Flushed.remove (hflushed : Flushed a b) (fs : ℕ → Fate) : Flushed a (b.remove fs) :=
  ⟨hflushed.file, hflushed.live, hflushed.buf, hflushed.failed, hflushed.policy⟩

theorem Flushed.abandon (hflushed : Flushed a b) (fs : ℕ → Fate) (t : Channel UInt8) :
    Flushed a (b.abandon fs t) :=
  ((hflushed.leaveTmp t).call fs).remove fs

theorem records_encodeAll_records (file : Bytes) (minSeqExclusive : ℕ) :
    records (encodeAll (records file minSeqExclusive)) minSeqExclusive =
      records file minSeqExclusive := by
  have hfits : ∀ ev ∈ records file minSeqExclusive, ev.Fits :=
    fun ev hev => fits_of_mem_readAOF (List.mem_of_mem_filter hev)
  have hread : (readAOF (encodeAll (records file minSeqExclusive))).events =
      records file minSeqExclusive := by
    rw [readAOF_encodeAll hfits]
  rw [records, hread, records, List.filter_filter]
  simp

theorem writeRecords_eq_true {t t' : Channel UInt8} {kept : List Event}
    (hfailed : t.failed = false) (hwrite : writeRecords fs t kept = (t', true)) :
    t'.failed = false ∧ t'.stream = t.stream ++ encodeAll kept := by
  induction kept generalizing t with
  | nil =>
      have heq : t = t' := congrArg Prod.fst hwrite
      subst heq
      exact ⟨hfailed, by rw [encodeAll_nil, List.append_nil]⟩
  | cons ev rest ih =>
      obtain ⟨mid, hfirst, hrest⟩ := Channel.andThen_eq_true.mp hwrite
      obtain ⟨hmid, hstream⟩ := Channel.write_eq_true hfirst
      obtain ⟨hlast, hall⟩ := ih hmid hrest
      exact ⟨hlast, by rw [hall, hstream, encodeAll_cons, List.append_assoc]⟩

theorem closeFile_spec {ok : Bool} (hflushed : Flushed a b)
    (hclose : b.closeFile fs = (after, ok)) :
    Stranded a after ∧ after.chan.file = a.chan.stream ∧ after.tmp = b.tmp := by
  have hafter := congrArg Prod.fst hclose
  simp only [closeFile, Channel.call_eq hflushed.live] at hafter
  subst hafter
  exact ⟨⟨rfl, hflushed.buf, hflushed.failed, hflushed.policy⟩, hflushed.file, rfl⟩

theorem rename_spec {ok : Bool} {file : Bytes} (hstranded : Stranded a b)
    (htmp : b.tmp = some file) (hrename : b.rename fs = (after, ok)) :
    Stranded a after ∧ after.chan.file = if ok then file else b.chan.file := by
  unfold rename at hrename
  rw [htmp] at hrename
  cases hcall : (b.call fs).2 with
  | true =>
      have hpair : b.call fs = ((b.call fs).1, true) := Prod.ext rfl hcall
      rw [hpair] at hrename
      cases hrename
      exact ⟨⟨hstranded.live, hstranded.buf, hstranded.failed, hstranded.policy⟩, rfl⟩
  | false =>
      have hpair : b.call fs = ((b.call fs).1, false) := Prod.ext rfl hcall
      rw [hpair] at hrename
      cases hrename
      exact ⟨⟨hstranded.live, hstranded.buf, hstranded.failed, hstranded.policy⟩, rfl⟩

theorem exit_swap (hflushed : Flushed a b)
    (htmp : b.tmp = some (encodeAll (records a.chan.stream minSeqExclusive)))
    (hswap : b.swap fs = (after, result)) : Exit minSeqExclusive a after result := by
  unfold swap at hswap
  split at hswap
  · rename_i closed hclose
    cases hswap
    obtain ⟨hstranded, hfile, -⟩ := closeFile_spec hflushed hclose
    exact .late .close (by decide) hstranded (by rw [hfile])
  · rename_i closed hclose
    obtain ⟨hstranded, hfile, htmp'⟩ := closeFile_spec hflushed hclose
    split at hswap
    · rename_i renamed hrename
      cases hswap
      obtain ⟨hstranded', hfile'⟩ := rename_spec hstranded (htmp'.trans htmp) hrename
      rw [if_neg Bool.false_ne_true, hfile] at hfile'
      exact .late .rename (by decide) hstranded' (by rw [hfile'])
    · rename_i renamed hrename
      obtain ⟨hstranded', hfile'⟩ := rename_spec hstranded (htmp'.trans htmp) hrename
      rw [if_pos rfl] at hfile'
      split at hswap
      · rename_i opened hopen
        have hopened : opened = (renamed.call fs).1 := by rw [hopen]
        cases hswap
        subst hopened
        refine .late .reopen (by decide)
          ⟨hstranded'.live, hstranded'.buf, hstranded'.failed, hstranded'.policy⟩ ?_
        change records renamed.chan.file minSeqExclusive = _
        rw [hfile', records_encodeAll_records]
      · rename_i opened hopen
        have hopened : opened = (renamed.call fs).1 := by rw [hopen]
        cases hswap
        subst hopened
        exact .done hfile' rfl

theorem exit_rewrite (hflushed : Flushed a b)
    (hrewrite : b.rewrite fs (records a.chan.stream minSeqExclusive) = (after, result)) :
    Exit minSeqExclusive a after result := by
  unfold rewrite at hrewrite
  split at hrewrite
  · rename_i created hcreate
    cases hrewrite
    have hkept := hflushed.call fs
    rw [hcreate] at hkept
    exact .early .create (by decide) hkept
  · rename_i created hcreate
    have hkept := hflushed.call fs
    rw [hcreate] at hkept
    split at hrewrite
    · cases hrewrite
      exact .early .write (by decide) (hkept.abandon fs _)
    · rename_i t hwrite
      obtain ⟨-, hstream⟩ := writeRecords_eq_true rfl hwrite
      split at hrewrite
      · cases hrewrite
        exact .early .tmpFlush (by decide) (hkept.abandon fs _)
      · rename_i flushed hflush
        obtain ⟨-, -, hfile⟩ := Channel.flush_eq_true hflush
        split at hrewrite
        · cases hrewrite
          exact .early .tmpSync (by decide) (hkept.abandon fs _)
        · rename_i synced hsync
          have hsynced : synced.file = flushed.file := (Channel.same_of_call hsync).1
          split at hrewrite
          · cases hrewrite
            exact .early .tmpClose (by decide) ((hkept.leaveTmp _).remove fs)
          · rename_i closed hclose
            have hclosed : closed.file = synced.file := (Channel.same_of_call hclose).1
            refine exit_swap (hkept.leaveTmp closed) ?_ hrewrite
            have hbytes : closed.file = encodeAll (records a.chan.stream minSeqExclusive) := by
              rw [hclosed, hsynced, hfile, hstream]
              rfl
            rw [← hbytes]
            rfl

theorem exit_compact (hcompact : a.compact fs minSeqExclusive = (after, result)) :
    Exit minSeqExclusive a after result := by
  unfold compact at hcompact
  split at hcompact
  · cases hcompact
    exact .first .flush (Or.inl rfl)
  · rename_i c hflush
    obtain ⟨hfailed, hbuf, hfile⟩ := Channel.flush_eq_true hflush
    split at hcompact
    · cases hcompact
      exact .first .sync (Or.inr rfl)
    · rename_i c' hsync
      obtain ⟨hfile', hbuf', hfailed'⟩ := Channel.same_of_call hsync
      have honward := Channel.onward_call fs c
      rw [hsync] at honward
      have hflushed : Flushed a { a with chan := c' } :=
        ⟨hfile'.trans hfile, honward.live.trans (Channel.live_of_call hsync), hbuf'.trans hbuf,
          hfailed'.trans hfailed, rfl⟩
      split at hcompact
      · rename_i opened hopen
        cases hcompact
        have hkept := hflushed.call fs
        rw [hopen] at hkept
        exact .early .openRead (by decide) hkept
      · rename_i opened hopen
        have hkept := hflushed.call fs
        rw [hopen] at hkept
        split_ifs at hcompact
        · cases hcompact
          exact .panicked
        · rw [hkept.file] at hcompact
          exact exit_rewrite hkept hcompact

theorem files_of_compact (hcompact : a.compact fs minSeqExclusive = (after, .done))
    (snapshot : Option Bytes) :
    (⟨snapshot, a.chan.stream⟩ : Files).compact minSeqExclusive =
      ⟨snapshot, after.chan.file⟩ := by
  cases exit_compact hcompact with
  | done hfile hlive =>
      rw [hfile]
      rfl

/-! ## The log afterwards -/

end AOF

inductive Later where
  | append (ev : Event)
  | sync
  | tick

namespace AOF

def apply (fs : ℕ → Fate) (a : AOF) : Later → AOF × Bool
  | .append ev => a.append fs ev
  | .sync => a.sync fs
  | .tick => (a.tick fs, true)

def later (fs : ℕ → Fate) : AOF → List Later → AOF × Bool
  | a, [] => (a, true)
  | a, op :: rest => (((a.apply fs op).1.later fs rest).1,
      (a.apply fs op).2 && ((a.apply fs op).1.later fs rest).2)

def appended (ops : List Later) : List Event :=
  ops.filterMap fun op => match op with
    | .append ev => some ev
    | _ => none

/-- Whatever the file system does: the record of an `Append` that returns no error is
in the file after the next `Sync` in which no call of the file system fails. -/
def Reaches (a : AOF) : Prop :=
  ∀ (fs : ℕ → Fate) (ops : List Later) (ev : Event) (last : AOF),
    (a.later fs ops).1.append fs ev = (last, true) → last.chan.Smooth fs →
    ∃ synced, last.sync fs = (synced, true) ∧ encodeRecord ev <:+ synced.chan.file

/-- If the file system fails no call, no operation returns an error, and after a
`Sync` all records are in the file, in their order. -/
def Serves (a : AOF) : Prop :=
  ∀ (fs : ℕ → Fate) (ops : List Later), a.chan.Smooth fs →
    ∃ last synced, a.later fs ops = (last, true) ∧ last.sync fs = (synced, true) ∧
      synced.chan.file = a.chan.stream ++ encodeAll (appended ops)

section Later

variable {fs : ℕ → Fate} {a b last : AOF} {ev : Event} {ops : List Later}

theorem chan_of_onChan {r : Channel UInt8 × Bool} {ok : Bool} (heq : a.onChan r = (last, ok)) :
    r = (last.chan, ok) := by
  cases heq
  rfl

theorem onward_append (fs : ℕ → Fate) (a : AOF) (ev : Event) :
    a.chan.Onward (a.append fs ev).1.chan := by
  refine Channel.onward_andThen (Channel.onward_write fs bufSize a.chan _) fun c => ?_
  cases a.policy with
  | always => exact Channel.onward_flushSync fs c
  | no => exact .refl c
  | everySec => exact .refl c

theorem onward_apply (fs : ℕ → Fate) (a : AOF) (op : Later) :
    a.chan.Onward (a.apply fs op).1.chan := by
  cases op with
  | append ev => exact onward_append fs a ev
  | sync => exact Channel.onward_flushSync fs a.chan
  | tick => exact (Channel.onward_flush fs a.chan).trans (Channel.onward_call fs _)

theorem onward_later (fs : ℕ → Fate) (a : AOF) (ops : List Later) :
    a.chan.Onward (a.later fs ops).1.chan := by
  induction ops generalizing a with
  | nil => exact .refl a.chan
  | cons op rest ih => exact (onward_apply fs a op).trans (ih _)

theorem policy_later (fs : ℕ → Fate) (a : AOF) (ops : List Later) :
    (a.later fs ops).1.policy = a.policy := by
  induction ops generalizing a with
  | nil => rfl
  | cons op rest ih =>
      refine (ih _).trans ?_
      cases op <;> rfl

theorem sync_eq_true {synced : AOF} (hsync : a.sync fs = (synced, true)) :
    a.chan.live = true ∧ synced.chan.file = a.chan.stream := by
  obtain ⟨hlive, -, -, hfile⟩ := Channel.flushSync_eq_true (chan_of_onChan hsync)
  exact ⟨hlive, hfile⟩

theorem sync_of_smooth (hsmooth : a.chan.Smooth fs) (hlive : a.chan.live = true)
    (hfailed : a.chan.failed = false) : ∃ synced, a.sync fs = (synced, true) := by
  obtain ⟨c, hsync⟩ := Channel.flushSync_of_smooth hsmooth hlive hfailed
  exact ⟨{ a with chan := c }, by rw [sync, hsync, onChan]⟩

theorem append_eq_true (happend : a.append fs ev = (last, true)) :
    last.chan.failed = false ∧ last.chan.stream = a.chan.stream ++ encodeRecord ev ∧
      (a.policy = .always → a.chan.live = true) := by
  obtain ⟨mid, hwrite, hrest⟩ := Channel.andThen_eq_true.mp (chan_of_onChan happend)
  obtain ⟨hfailed, hstream⟩ := Channel.write_eq_true hwrite
  have honward := Channel.onward_write fs bufSize a.chan (encodeRecord ev)
  rw [hwrite] at honward
  cases hpolicy : a.policy with
  | always =>
      rw [hpolicy] at hrest
      obtain ⟨hlive, hfailed', hbuf, hfile⟩ := Channel.flushSync_eq_true hrest
      refine ⟨hfailed', ?_, fun _ => honward.live.symm.trans hlive⟩
      rw [Channel.stream, hbuf, List.append_nil, hfile, hstream]
  | no | everySec =>
      rw [hpolicy] at hrest
      have heq : mid = last.chan := congrArg Prod.fst hrest
      rw [← heq]
      exact ⟨hfailed, hstream, by simp⟩

theorem append_of_smooth (hsmooth : a.chan.Smooth fs) (hlive : a.chan.live = true)
    (hfailed : a.chan.failed = false) (ev : Event) :
    ∃ last, a.append fs ev = (last, true) := by
  obtain ⟨mid, hwrite⟩ := Channel.write_of_smooth hsmooth hlive hfailed bufSize (encodeRecord ev)
  have honward := Channel.onward_write fs bufSize a.chan (encodeRecord ev)
  rw [hwrite] at honward
  have hrest : ∃ c, (match a.policy with
      | .always => mid.flushSync fs
      | _ => (mid, true)) = (c, true) := by
    cases a.policy with
    | always =>
        exact Channel.flushSync_of_smooth (hsmooth.onward honward) (honward.live.trans hlive)
          (Channel.write_eq_true hwrite).1
    | no => exact ⟨mid, rfl⟩
    | everySec => exact ⟨mid, rfl⟩
  obtain ⟨c, hc⟩ := hrest
  refine ⟨{ a with chan := c }, ?_⟩
  rw [append, Channel.andThen_eq_true.mpr ⟨mid, hwrite, hc⟩, onChan]

structure Sound (fs : ℕ → Fate) (a : AOF) : Prop where
  live : a.chan.live = true
  failed : a.chan.failed = false
  smooth : a.chan.Smooth fs

theorem Sound.tick (hsound : a.Sound fs) :
    (a.tick fs).chan.failed = false ∧ (a.tick fs).chan.stream = a.chan.stream := by
  obtain ⟨c, hflush⟩ := Channel.flush_of_smooth hsound.smooth hsound.live hsound.failed
  obtain ⟨hfailed, hbuf, hfile⟩ := Channel.flush_eq_true hflush
  have hcall : c.call fs = ((c.call fs).1, (c.call fs).2) := rfl
  obtain ⟨hfile', hbuf', hfailed'⟩ := Channel.same_of_call hcall
  rw [AOF.tick, hflush]
  refine ⟨hfailed'.trans hfailed, ?_⟩
  rw [Channel.stream, hfile', hbuf', hbuf, List.append_nil, hfile]

theorem Sound.apply (hsound : a.Sound fs) (op : Later) :
    ∃ next, a.apply fs op = (next, true) ∧ next.Sound fs ∧
      next.chan.stream = a.chan.stream ++ encodeAll (appended [op]) := by
  have honward := onward_apply fs a op
  have hlive := honward.live.trans hsound.live
  have hsmooth := hsound.smooth.onward honward
  cases op with
  | append ev =>
      obtain ⟨next, happend⟩ := append_of_smooth hsound.smooth hsound.live hsound.failed ev
      obtain ⟨hfailed, hstream, -⟩ := append_eq_true happend
      rw [AOF.apply, happend] at hlive hsmooth
      refine ⟨next, happend, ⟨hlive, hfailed, hsmooth⟩, hstream.trans ?_⟩
      simp [appended]
  | sync =>
      obtain ⟨next, hsync⟩ := sync_of_smooth hsound.smooth hsound.live hsound.failed
      obtain ⟨-, hfailed, hbuf, hfile⟩ := Channel.flushSync_eq_true (chan_of_onChan hsync)
      rw [AOF.apply, hsync] at hlive hsmooth
      refine ⟨next, hsync, ⟨hlive, hfailed, hsmooth⟩, ?_⟩
      rw [Channel.stream, hbuf, List.append_nil, hfile]
      simp [appended]
  | tick =>
      obtain ⟨hfailed, hstream⟩ := hsound.tick
      refine ⟨a.tick fs, rfl, ⟨hlive, hfailed, hsmooth⟩, hstream.trans ?_⟩
      simp [appended]

theorem appended_cons (op : Later) (rest : List Later) :
    appended (op :: rest) = appended [op] ++ appended rest := by
  cases op <;> rfl

theorem Sound.later (hsound : a.Sound fs) (ops : List Later) :
    ∃ next, a.later fs ops = (next, true) ∧ next.Sound fs ∧
      next.chan.stream = a.chan.stream ++ encodeAll (appended ops) := by
  induction ops generalizing a with
  | nil => exact ⟨a, rfl, hsound, by simp [appended]⟩
  | cons op rest ih =>
      obtain ⟨mid, hop, hmid, hstream⟩ := hsound.apply op
      obtain ⟨next, hrest, hnext, hstream'⟩ := ih hmid
      refine ⟨next, ?_, hnext, ?_⟩
      · rw [AOF.later, hop, hrest]
        rfl
      · rw [hstream', hstream, appended_cons op rest, encodeAll_append, List.append_assoc]

/-! ## Which failures leave a working log -/

theorem reaches_of_live (hlive : a.chan.live = true) : a.Reaches := by
  intro fs ops ev last happend hsmooth
  obtain ⟨hfailed, hstream, -⟩ := append_eq_true happend
  have honward := (onward_later fs a ops).trans (onward_append fs (a.later fs ops).1 ev)
  rw [happend] at honward
  obtain ⟨synced, hsync⟩ := sync_of_smooth hsmooth (honward.live.trans hlive) hfailed
  refine ⟨synced, hsync, ?_⟩
  rw [(sync_eq_true hsync).2, hstream]
  exact List.suffix_append _ _

theorem reaches_of_always (hpolicy : a.policy = .always) (hdead : a.chan.live = false) :
    a.Reaches := by
  intro fs ops ev last happend
  have hlive := (append_eq_true happend).2.2 ((policy_later fs a ops).trans hpolicy)
  rw [(onward_later fs a ops).live, hdead] at hlive
  contradiction

theorem serves_of_live (hlive : a.chan.live = true) (hfailed : a.chan.failed = false) :
    a.Serves := by
  intro fs ops hsmooth
  obtain ⟨next, hlater, hsound, hstream⟩ := Sound.later ⟨hlive, hfailed, hsmooth⟩ ops
  obtain ⟨synced, hsync⟩ := sync_of_smooth hsound.smooth hsound.live hsound.failed
  exact ⟨next, synced, hlater, hsync, (sync_eq_true hsync).2.trans hstream⟩

theorem not_serves (hdead : a.chan.live = false) : ¬ a.Serves := by
  intro hserves
  obtain ⟨last, synced, hlater, hsync, -⟩ := hserves (fun _ => .done) [] fun _ _ => rfl
  cases hlater
  rw [(sync_eq_true hsync).1] at hdead
  contradiction

theorem not_reaches (hstranded : Stranded b a) (hpolicy : a.policy ≠ .always) :
    ¬ a.Reaches := by
  intro hreaches
  have hfits : (encodeRecord ⟨0, .opFlush, [], [], 0⟩).length ≤ bufSize - a.chan.buf.length := by
    rw [hstranded.buf, length_encodeRecord]
    decide
  have hwrite : a.chan.write (fun _ => .done) bufSize (encodeRecord ⟨0, .opFlush, [], [], 0⟩) =
      (_, true) := Channel.write_of_fits hstranded.failed hfits
  have hrest : (match a.policy with
      | .always => (a.chan.push (encodeRecord ⟨0, .opFlush, [], [], 0⟩)).flushSync fun _ => .done
      | _ => (a.chan.push (encodeRecord ⟨0, .opFlush, [], [], 0⟩), true)) =
      (a.chan.push (encodeRecord ⟨0, .opFlush, [], [], 0⟩), true) := by
    cases hcase : a.policy with
    | always => exact absurd hcase hpolicy
    | no => rfl
    | everySec => rfl
  have happend : a.append (fun _ => .done) ⟨0, .opFlush, [], [], 0⟩ =
      ({ a with chan := a.chan.push (encodeRecord ⟨0, .opFlush, [], [], 0⟩) }, true) := by
    rw [append, Channel.andThen_eq_true.mpr ⟨_, hwrite, hrest⟩, onChan]
  obtain ⟨synced, hsync, -⟩ := hreaches (fun _ => .done) [] _ _ happend fun _ _ => rfl
  have hlive : a.chan.live = true := (sync_eq_true hsync).1
  rw [hstranded.live] at hlive
  contradiction

/-- A compaction that fails keeps the records of the file.  The log goes on working
exactly if the failing call comes before the live handle is closed; behind it,
records that were taken without an error are lost unless every `Append` flushes. -/
theorem failed_compaction_iff (fs : ℕ → Fate) (minSeqExclusive : ℕ) (a after : AOF)
    (call : CompactCall) (hcompact : a.compact fs minSeqExclusive = (after, .failed call))
    (hflush : call ≠ .flush) (hsync : call ≠ .sync) :
    records after.chan.file minSeqExclusive = records a.chan.stream minSeqExclusive ∧
      (after.Reaches ↔ ¬ call.Late ∨ a.policy = .always) ∧
      (after.Serves ↔ ¬ call.Late) := by
  cases exit_compact hcompact with
  | first call hcall => exact absurd hcall (by simp [hflush, hsync])
  | early call hcall hflushed =>
      refine ⟨by rw [hflushed.file], ?_, ?_⟩
      · exact iff_of_true (reaches_of_live hflushed.live) (Or.inl hcall)
      · exact iff_of_true (serves_of_live hflushed.live hflushed.failed) hcall
  | late call hcall hstranded hrecords =>
      refine ⟨hrecords, ?_, ?_⟩
      · constructor
        · intro hreaches
          by_contra hnone
          push Not at hnone
          refine not_reaches hstranded ?_ hreaches
          rw [hstranded.policy]
          exact hnone.2
        · rintro (hearly | hpolicy)
          · exact absurd hcall hearly
          · exact reaches_of_always (hstranded.policy.trans hpolicy) hstranded.live
      · exact iff_of_false (not_serves hstranded.live) (not_not_intro hcall)

def oneSet : AOF := ⟨.fresh (encodeRecord ⟨5, .opSet, [97], [49], 0⟩) 0, .no, none⟩

def failAt (n : ℕ) : ℕ → Fate := fun m => if m = n then .cut 0 else .done

/-- Creating the temporary file fails: the log goes on. -/
theorem failed_compaction_create :
    ∃ after, oneSet.compact (failAt 2) 0 = (after, .failed .create) ∧
      records after.chan.file 0 = [⟨5, .opSet, [97], [49], 0⟩] ∧ after.Reaches ∧
      after.Serves := by
  have hcompact : oneSet.compact (failAt 2) 0 = (_, .failed .create) := rfl
  obtain ⟨hrecords, hreaches, hserves⟩ :=
    failed_compaction_iff (failAt 2) 0 oneSet _ .create hcompact (by decide) (by decide)
  refine ⟨_, hcompact, hrecords.trans ?_, hreaches.mpr (Or.inl (by decide)),
    hserves.mpr (by decide)⟩
  decide +kernel

/-- The rename fails: the next record is taken without an error and never gets to
the file. -/
theorem append_lost_after_rename :
    ∃ after last, oneSet.compact (failAt 7) 0 = (after, .failed .rename) ∧
      after.append (fun _ => .done) ⟨6, .opSet, [98], [50], 0⟩ = (last, true) ∧
      ∀ fs ops, (last.later fs ops).1.chan.file = oneSet.chan.file := by
  refine ⟨_, _, rfl, rfl, ?_⟩
  intro fs ops
  exact (onward_later fs _ ops).dead rfl

end Later

end AOF

end Persistence
end DistCache
