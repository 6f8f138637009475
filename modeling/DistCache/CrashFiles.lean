import Mathlib.Data.List.Infix
import Mathlib.Logic.Function.Basic
import Mathlib.Tactic

/-!
# Files that survive a crash

A directory maps names to files, and a file knows how much of it has reached the disk.
A crash may come between any two operations; it keeps the names and takes bytes that
were not synced.  Replacing a file through a temporary one that is synced and renamed
leaves the old bytes or, after the rename, the new ones.
-/

namespace DistCache
namespace CrashFiles

variable {N β : Type*}

structure File (β : Type*) where
  bytes : List β
  synced : ℕ

abbrev Dir (N β : Type*) := N → Option (File β)

inductive FileOp (N β : Type*) where
  | create (name : N)
  | write (name : N) (chunk : List β)
  | sync (name : N)
  | close (name : N)
  | rename (source target : N)
  | openAppend (name : N)

section Operations

variable [DecidableEq N]

namespace Dir

def apply (d : Dir N β) : FileOp N β → Dir N β
  | .create name => Function.update d name (some ⟨[], 0⟩)
  | .write name chunk =>
      Function.update d name ((d name).map fun f => { f with bytes := f.bytes ++ chunk })
  | .sync name =>
      Function.update d name ((d name).map fun f => { f with synced := f.bytes.length })
  | .close _ => d
  | .rename source target => Function.update (Function.update d target (d source)) source none
  | .openAppend name =>
      match d name with
      | none => Function.update d name (some ⟨[], 0⟩)
      | some _ => d

def run (d : Dir N β) (ops : List (FileOp N β)) : Dir N β := ops.foldl apply d

theorem run_append (d : Dir N β) (first second : List (FileOp N β)) :
    d.run (first ++ second) = (d.run first).run second :=
  List.foldl_append

end Dir

end Operations

def Crash (d after : Dir N β) : Prop :=
  ∀ name, d name = none ∧ after name = none ∨
    ∃ f kept, d name = some f ∧ f.synced ≤ kept ∧
      after name = some ⟨f.bytes.take kept, (f.bytes.take kept).length⟩

def Dir.content (d : Dir N β) (name : N) : Option (List β) := (d name).map File.bytes

def Settled (d : Dir N β) (name : N) : Prop := ∀ f, d name = some f → f.synced = f.bytes.length

theorem Crash.content_eq {d after : Dir N β} {name : N} (hcrash : Crash d after)
    (hsettled : Settled d name) : after.content name = d.content name := by
  rcases hcrash name with ⟨hnone, hafter⟩ | ⟨f, kept, hfile, hkept, hafter⟩
  · rw [Dir.content, Dir.content, hnone, hafter]
  · have hall : f.bytes.length ≤ kept := (hsettled f hfile).symm.trans_le hkept
    rw [Dir.content, Dir.content, hfile, hafter, List.take_of_length_le hall]
    rfl

theorem content_of_synced {d : Dir N β} {name : N} {bytes : List β}
    (hfile : d name = some ⟨bytes, bytes.length⟩) :
    d.content name = some bytes ∧ Settled d name := by
  constructor
  · rw [Dir.content, hfile]
    rfl
  · intro f hsome
    rw [hfile, Option.some.injEq] at hsome
    rw [← hsome]

theorem prefix_split {body rest done : List (FileOp N β)} {op : FileOp N β}
    (hdone : done <+: body ++ op :: rest) :
    done <+: body ∨ ∃ more, more <+: rest ∧ done = body ++ op :: more := by
  rcases List.prefix_or_prefix_of_prefix hdone (List.prefix_append body (op :: rest)) with
    hbefore | hafter
  · exact Or.inl hbefore
  · obtain ⟨tail, rfl⟩ := hafter
    cases tail with
    | nil => exact Or.inl (by rw [List.append_nil])
    | cons first more =>
        have htail := (List.prefix_append_right_inj body).mp hdone
        obtain ⟨rfl, hmore⟩ := List.cons_prefix_cons.mp htail
        exact Or.inr ⟨more, hmore, rfl⟩

/-! ## Operations that leave a file alone -/

def FileOp.Spares (name : N) : FileOp N β → Prop
  | .create other => other ≠ name
  | .write other chunk => other ≠ name ∨ chunk = []
  | .sync _ => True
  | .close _ => True
  | .rename source target => source ≠ name ∧ target ≠ name
  | .openAppend other => other ≠ name

section Replace

variable {d after : Dir N β} {name tmp target : N} {ops : List (FileOp N β)}

def Same (name : N) (d next : Dir N β) : Prop :=
  next.content name = d.content name ∧ (Settled d name → Settled next name)

theorem same_of_eq {next : Dir N β} (heq : next name = d name) : Same name d next := by
  refine ⟨by rw [Dir.content, heq, Dir.content], ?_⟩
  intro hsettled f hfile
  rw [heq] at hfile
  exact hsettled f hfile

theorem Same.trans {next last : Dir N β} (hfirst : Same name d next)
    (hsecond : Same name next last) : Same name d last :=
  ⟨hsecond.1.trans hfirst.1, fun h => hsecond.2 (hfirst.2 h)⟩

section Spared

variable [DecidableEq N]

theorem same_apply {op : FileOp N β} (hspares : op.Spares name) : Same name d (d.apply op) := by
  cases op with
  | create other => exact same_of_eq (Function.update_of_ne (Ne.symm hspares) _ _)
  | close other => exact same_of_eq rfl
  | rename source target =>
      apply same_of_eq
      rw [Dir.apply, Function.update_of_ne (Ne.symm hspares.1),
        Function.update_of_ne (Ne.symm hspares.2)]
  | openAppend other =>
      apply same_of_eq
      rw [Dir.apply]
      cases d other with
      | none => exact Function.update_of_ne (Ne.symm hspares) _ _
      | some f => rfl
  | write other chunk =>
      by_cases hother : other = name
      · have hempty : chunk = [] := hspares.resolve_left (not_not_intro hother)
        apply same_of_eq
        subst hother
        rw [Dir.apply, hempty, Function.update_self]
        cases d other with
        | none => rfl
        | some f => simp
      · exact same_of_eq (Function.update_of_ne (Ne.symm hother) _ _)
  | sync other =>
      by_cases hother : other = name
      · subst hother
        constructor
        · rw [Dir.content, Dir.content, Dir.apply, Function.update_self]
          cases d other <;> rfl
        · intro _ f hfile
          rw [Dir.apply, Function.update_self, Option.map_eq_some_iff] at hfile
          obtain ⟨g, _, rfl⟩ := hfile
          rfl
      · exact same_of_eq (Function.update_of_ne (Ne.symm hother) _ _)

theorem same_run (hspares : ∀ op ∈ ops, op.Spares name) : Same name d (d.run ops) := by
  induction ops generalizing d with
  | nil => exact same_of_eq rfl
  | cons op rest ih =>
      have hhead : Same name d (d.apply op) := same_apply (hspares op List.mem_cons_self)
      exact hhead.trans (ih fun other hmem => hspares other (List.mem_cons_of_mem op hmem))

theorem Crash.content_of_spares {done : List (FileOp N β)} (hspares : ∀ op ∈ ops, op.Spares name)
    (hsettled : Settled d name) (hdone : done <+: ops) (hcrash : Crash (d.run done) after) :
    after.content name = d.content name := by
  have hsame : Same name d (d.run done) :=
    same_run fun op hmem => hspares op (hdone.subset hmem)
  rw [hcrash.content_eq (hsame.2 hsettled), hsame.1]

end Spared

/-! ## Replacing a file -/

def writeTmp (tmp : N) (chunks : List (List β)) : List (FileOp N β) :=
  .create tmp :: chunks.map (.write tmp) ++ [.sync tmp, .close tmp]

theorem spares_writeTmp (hne : tmp ≠ name) (chunks : List (List β)) :
    ∀ op ∈ writeTmp tmp chunks, op.Spares name := by
  intro op hmem
  simp only [writeTmp, List.cons_append, List.mem_cons, List.mem_append, List.mem_map,
    List.not_mem_nil, or_false] at hmem
  rcases hmem with rfl | ⟨chunk, _, rfl⟩ | rfl | rfl
  · exact hne
  · exact Or.inl hne
  · trivial
  · trivial

variable [DecidableEq N]

theorem run_writes {f : File β} (hfile : d tmp = some f) (chunks : List (List β)) :
    d.run (chunks.map (.write tmp)) tmp = some ⟨f.bytes ++ chunks.flatten, f.synced⟩ := by
  induction chunks generalizing d f with
  | nil => simpa [Dir.run] using hfile
  | cons chunk rest ih =>
      have hnext : d.apply (.write tmp chunk) tmp = some ⟨f.bytes ++ chunk, f.synced⟩ := by
        rw [Dir.apply, Function.update_self, hfile]
        rfl
      have hrest := ih hnext
      rw [List.flatten_cons, ← List.append_assoc]
      exact hrest

theorem run_writeTmp (d : Dir N β) (tmp : N) (chunks : List (List β)) :
    d.run (writeTmp tmp chunks) tmp = some ⟨chunks.flatten, chunks.flatten.length⟩ := by
  have hcreated : d.apply (.create tmp) tmp = some ⟨[], 0⟩ := Function.update_self _ _ _
  have hwritten := run_writes hcreated chunks
  have hsplit : d.run (writeTmp tmp chunks) =
      ((d.apply (.create tmp)).run (chunks.map (.write tmp))).apply (.sync tmp) := by
    rw [writeTmp, Dir.run, List.foldl_append]
    rfl
  have hsync : ∀ e : Dir N β, e.apply (.sync tmp) tmp =
      (e tmp).map fun f => { f with synced := f.bytes.length } :=
    fun e => Function.update_self _ _ _
  rw [hsplit, hsync, hwritten]
  simp

def Dir.replace (d : Dir N β) (body : List (FileOp N β)) (tmp target : N) : Dir N β :=
  (d.run body).apply (.rename tmp target)

theorem Dir.run_replace (d : Dir N β) (body more : List (FileOp N β)) (tmp target : N) :
    d.run (body ++ .rename tmp target :: more) = (d.replace body tmp target).run more :=
  d.run_append body (.rename tmp target :: more)

theorem replace_target (hne : tmp ≠ target) :
    d.replace ops tmp target target = d.run ops tmp := by
  rw [Dir.replace, Dir.apply, Function.update_of_ne hne.symm, Function.update_self]

theorem same_replace (hspares : ∀ op ∈ ops, op.Spares name) (htmp : tmp ≠ name)
    (htarget : target ≠ name) : Same name d (d.replace ops tmp target) :=
  (same_run hspares).trans (same_apply ⟨htmp, htarget⟩)

theorem openAppend_of_some {f : File β} (hfile : d name = some f) :
    d.apply (.openAppend name) = d := by
  simp only [Dir.apply, hfile]

end Replace

end CrashFiles
end DistCache
