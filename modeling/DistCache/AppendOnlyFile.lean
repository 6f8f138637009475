import DistCache.RecordCodec

/-!
# The append-only file over several processes

`ReadAOF` delivers records until one cannot be decoded, and `OpenAOF` opens the file for
appending as it is.  A process that crashes may leave the beginning of a record at the
end, and the next process appends behind it.  A lifetime is what one process adds:
complete records and possibly the beginning of another.
-/

namespace DistCache
namespace Persistence

open BigEndian

/-- What `ReadAOF` hands to its callback, and whether the decoder panicked. -/
structure Reading where
  events : List Event
  panicked : Bool
  deriving DecidableEq, Repr

def readLoop : ℕ → Bytes → Reading
  | 0, _ => ⟨[], false⟩
  | fuel + 1, input =>
      match decodeRecord input with
      | .event ev rest =>
          let r := readLoop fuel rest
          { r with events := ev :: r.events }
      | .panicked => ⟨[], true⟩
      | .eof => ⟨[], false⟩
      | .torn => ⟨[], false⟩

/-- Every record takes bytes, so that the length of the file bounds the loop. -/
def readAOF (file : Bytes) : Reading := readLoop file.length file

def encodeAll (events : List Event) : Bytes := events.flatMap encodeRecord

@[simp] theorem encodeAll_nil : encodeAll [] = [] := rfl

@[simp] theorem encodeAll_cons (ev : Event) (events : List Event) :
    encodeAll (ev :: events) = encodeRecord ev ++ encodeAll events := rfl

@[simp] theorem encodeAll_append (first second : List Event) :
    encodeAll (first ++ second) = encodeAll first ++ encodeAll second :=
  List.flatMap_append

/-! ## The loop of the reader -/

theorem length_lt_of_decodeRecord {input rest : Bytes} {ev : Event}
    (hdecode : decodeRecord input = .event ev rest) : rest.length < input.length := by
  obtain ⟨hinput, _⟩ := decodeRecord_eq_event hdecode
  have hlength := length_encodeRecord ev
  rw [hinput, List.length_append]
  omega

theorem readLoop_eq {fuel : ℕ} {input : Bytes} (hfuel : input.length ≤ fuel) :
    readLoop fuel input = readAOF input := by
  have hany : ∀ (n m : ℕ) (input : Bytes), input.length ≤ n → input.length ≤ m →
      readLoop n input = readLoop m input := by
    intro n
    induction n with
    | zero =>
        intro m input hn _
        have hnil : input = [] := List.eq_nil_of_length_eq_zero (by omega)
        subst hnil
        cases m <;> rfl
    | succ n ih =>
        intro m input hn hm
        cases m with
        | zero =>
            have hnil : input = [] := List.eq_nil_of_length_eq_zero (by omega)
            subst hnil
            rfl
        | succ m =>
            simp only [readLoop]
            cases hdecode : decodeRecord input with
            | event ev rest =>
                have hlt := length_lt_of_decodeRecord hdecode
                simp only [ih m rest (by omega) (by omega)]
            | eof => rfl
            | torn => rfl
            | panicked => rfl
  exact hany fuel input.length input hfuel le_rfl

theorem readAOF_of_event {input rest : Bytes} {ev : Event}
    (hdecode : decodeRecord input = .event ev rest) :
    readAOF input = { readAOF rest with events := ev :: (readAOF rest).events } := by
  have hlt := length_lt_of_decodeRecord hdecode
  obtain ⟨n, hn⟩ : ∃ n, input.length = n + 1 := ⟨input.length - 1, by omega⟩
  rw [readAOF, hn]
  simp only [readLoop, hdecode, readLoop_eq (show rest.length ≤ n by omega)]

theorem readAOF_of_end {input : Bytes}
    (hdecode : decodeRecord input = .eof ∨ decodeRecord input = .torn) :
    readAOF input = ⟨[], false⟩ := by
  unfold readAOF
  cases input.length with
  | zero => rfl
  | succ n => rcases hdecode with h | h <;> simp [readLoop, h]

theorem readAOF_encodeAll_append {events : List Event} (hfits : ∀ ev ∈ events, ev.Fits)
    (rest : Bytes) :
    readAOF (encodeAll events ++ rest) =
      { readAOF rest with events := events ++ (readAOF rest).events } := by
  induction events with
  | nil => rfl
  | cons ev events ih =>
      have hhead := decodeRecord_encodeRecord (hfits ev List.mem_cons_self)
        (encodeAll events ++ rest)
      have htail := ih fun other hmem => hfits other (List.mem_cons_of_mem ev hmem)
      rw [encodeAll_cons, List.append_assoc, readAOF_of_event hhead, htail]
      rfl

theorem readAOF_encodeAll {events : List Event} (hfits : ∀ ev ∈ events, ev.Fits) :
    readAOF (encodeAll events) = ⟨events, false⟩ := by
  have hread := readAOF_encodeAll_append hfits []
  have hempty : readAOF [] = ⟨[], false⟩ := rfl
  rw [List.append_nil, hempty] at hread
  simpa using hread

theorem encodeAll_readAOF_part (input : Bytes) :
    encodeAll (readAOF input).events <+: input := by
  have hloop : ∀ (n : ℕ) (input : Bytes), encodeAll (readLoop n input).events <+: input := by
    intro n
    induction n with
    | zero => exact fun input => List.nil_prefix
    | succ n ih =>
        intro input
        simp only [readLoop]
        cases hdecode : decodeRecord input with
        | event ev rest =>
            obtain ⟨hinput, _⟩ := decodeRecord_eq_event hdecode
            rw [hinput]
            exact List.prefix_append_right_inj _ |>.mpr (ih rest)
        | eof => exact List.nil_prefix
        | torn => exact List.nil_prefix
        | panicked => exact List.nil_prefix
  exact hloop input.length input

theorem fits_of_mem_readAOF {input : Bytes} {ev : Event}
    (hmem : ev ∈ (readAOF input).events) : ev.Fits := by
  have hloop : ∀ (n : ℕ) (input : Bytes), ∀ ev ∈ (readLoop n input).events, ev.Fits := by
    intro n
    induction n with
    | zero => exact fun input ev hmem => absurd hmem List.not_mem_nil
    | succ n ih =>
        intro input ev hmem
        simp only [readLoop] at hmem
        cases hdecode : decodeRecord input with
        | event first rest =>
            simp only [hdecode] at hmem
            rcases List.mem_cons.mp hmem with rfl | hmem
            · exact (decodeRecord_eq_event hdecode).2
            · exact ih rest ev hmem
        | eof => simp [hdecode] at hmem
        | torn => simp [hdecode] at hmem
        | panicked => simp [hdecode] at hmem
  exact hloop input.length input ev hmem

/-! ## A file that was cut off -/

/-- `done` is the longest prefix of the events whose records lie before the cut. -/
structure CompleteBefore (cut : ℕ) (events done : List Event) : Prop where
  part : done <+: events
  before : (encodeAll done).length ≤ cut
  longest : ∀ other, other <+: events → (encodeAll other).length ≤ cut → other <+: done

theorem completeBefore_nil (cut : ℕ) : CompleteBefore cut [] [] where
  part := List.nil_prefix
  before := Nat.zero_le cut
  longest := fun _ hother _ => hother

theorem CompleteBefore.cons (ev : Event) {rest done : List Event} {cut : ℕ}
    (hdone : CompleteBefore cut rest done) :
    CompleteBefore ((encodeRecord ev).length + cut) (ev :: rest) (ev :: done) := by
  refine ⟨(List.prefix_cons_inj ev).mpr hdone.part, ?_, ?_⟩
  · rw [encodeAll_cons, List.length_append]
    have hle := hdone.before
    omega
  · intro other hother hle
    cases other with
    | nil => exact List.nil_prefix
    | cons first more =>
        obtain ⟨rfl, hmore⟩ := List.cons_prefix_cons.mp hother
        rw [encodeAll_cons, List.length_append] at hle
        exact (List.prefix_cons_inj first).mpr (hdone.longest more hmore (by omega))

theorem completeBefore_of_lt {ev : Event} {rest : List Event} {cut : ℕ}
    (hcut : cut < (encodeRecord ev).length) : CompleteBefore cut (ev :: rest) [] := by
  refine ⟨List.nil_prefix, Nat.zero_le cut, ?_⟩
  intro other hother hle
  cases other with
  | nil => exact List.nil_prefix
  | cons first more =>
      obtain ⟨rfl, _⟩ := List.cons_prefix_cons.mp hother
      rw [encodeAll_cons, List.length_append] at hle
      omega

theorem readAOF_take {events : List Event} (hfits : ∀ ev ∈ events, ev.Fits) (cut : ℕ) :
    ∃ done, CompleteBefore cut events done ∧
      readAOF ((encodeAll events).take cut) = ⟨done, false⟩ := by
  induction events generalizing cut with
  | nil =>
      refine ⟨[], completeBefore_nil cut, ?_⟩
      rw [encodeAll_nil, List.take_nil]
      rfl
  | cons ev rest ih =>
      have hev := hfits ev List.mem_cons_self
      rw [encodeAll_cons]
      by_cases hcut : cut < (encodeRecord ev).length
      · refine ⟨[], completeBefore_of_lt hcut, ?_⟩
        rw [List.take_append_of_le_length hcut.le]
        apply readAOF_of_end
        apply decodeRecord_of_proper_part hev (List.take_prefix cut _)
        intro heq
        have hlength := congrArg List.length heq
        rw [List.length_take] at hlength
        omega
      · obtain ⟨done, hdone, hread⟩ :=
          ih (fun other hmem => hfits other (List.mem_cons_of_mem ev hmem))
            (cut - (encodeRecord ev).length)
        have hsum : (encodeRecord ev).length + (cut - (encodeRecord ev).length) = cut := by
          omega
        have hcons := hdone.cons ev
        have htake : (encodeRecord ev ++ encodeAll rest).take cut =
            encodeRecord ev ++ (encodeAll rest).take (cut - (encodeRecord ev).length) := by
          rw [List.take_append, List.take_of_length_le (by omega)]
        rw [hsum] at hcons
        refine ⟨ev :: done, hcons, ?_⟩
        rw [htake, readAOF_of_event (decodeRecord_encodeRecord hev _), hread]

/-- However a file of complete records is cut, the loop of the reader ends and
delivers the records before the cut. -/
theorem cut_file_read (events : List Event) (hfits : ∀ ev ∈ events, ev.Fits) (cut : ℕ) :
    ∃ done, CompleteBefore cut events done ∧
      ∀ fuel, ((encodeAll events).take cut).length ≤ fuel →
        readLoop fuel ((encodeAll events).take cut) = ⟨done, false⟩ := by
  obtain ⟨done, hdone, hread⟩ := readAOF_take hfits cut
  refine ⟨done, hdone, ?_⟩
  intro fuel hfuel
  rw [readLoop_eq hfuel, hread]

/-- Two records, and a cut in the second one. -/
theorem cut_file_read_secondTorn :
    ∃ done, CompleteBefore 50 [.del [97], .set [98] [49] 7] done ∧
      readLoop 50 ((encodeAll [.del [97], .set [98] [49] 7]).take 50) = ⟨done, false⟩ ∧
      done = [.del [97]] := by
  have hfits : ∀ ev ∈ [Event.del [97], .set [98] [49] 7], ev.Fits := by
    intro ev hmem
    rcases List.mem_pair.mp hmem with rfl | rfl
    · exact ⟨by decide, by decide, by decide, by decide⟩
    · exact ⟨by decide, by decide, by decide, by decide⟩
  obtain ⟨done, hdone, hread⟩ := cut_file_read _ hfits 50
  have hloop := hread 50 (by decide)
  have heval : readLoop 50 ((encodeAll [.del [97], .set [98] [49] 7]).take 50) =
      ⟨[.del [97]], false⟩ := by
    decide +kernel
  refine ⟨done, hdone, hloop, ?_⟩
  rw [heval] at hloop
  exact (Reading.mk.inj hloop).1.symm

/-! ## Lifetimes -/

structure Lifetime where
  events : List Event
  tail : Bytes
  fits : ∀ ev ∈ events, ev.Fits
  torn : ∃ ev : Event, ev.Fits ∧ tail <+: encodeRecord ev ∧ tail ≠ encodeRecord ev

def Lifetime.bytes (l : Lifetime) : Bytes := encodeAll l.events ++ l.tail

/-- The file is opened for appending, whatever it ends with. -/
def fileAfter (lifetimes : List Lifetime) : Bytes := lifetimes.flatMap Lifetime.bytes

def completed (lifetimes : List Lifetime) : List Event := lifetimes.flatMap Lifetime.events

def NothingAfterTorn (lifetimes : List Lifetime) : Prop :=
  ∀ before l after, lifetimes = before ++ l :: after → l.tail ≠ [] → fileAfter after = []

theorem NothingAfterTorn.of_cons {l : Lifetime} {rest : List Lifetime}
    (hnothing : NothingAfterTorn (l :: rest)) : NothingAfterTorn rest := by
  intro before torn after hsplit htail
  exact hnothing (l :: before) torn after (by rw [hsplit]; rfl) htail

theorem Lifetime.readAOF_tail (l : Lifetime) : readAOF l.tail = ⟨[], false⟩ := by
  obtain ⟨ev, hfits, hpart, hne⟩ := l.torn
  exact readAOF_of_end (decodeRecord_of_proper_part hfits hpart hne)

theorem encodeAll_eq_nil {events : List Event} (hnil : encodeAll events = []) :
    events = [] := by
  cases events with
  | nil => rfl
  | cons ev rest =>
      have hlength := length_encodeRecord ev
      have hzero := congrArg List.length hnil
      rw [encodeAll_cons, List.length_append, List.length_nil] at hzero
      omega

theorem completed_eq_nil {lifetimes : List Lifetime} (hnil : fileAfter lifetimes = []) :
    completed lifetimes = [] := by
  induction lifetimes with
  | nil => rfl
  | cons l rest ih =>
      simp only [fileAfter, List.flatMap_cons, List.append_eq_nil_iff, Lifetime.bytes] at hnil
      have hevents := encodeAll_eq_nil hnil.1.1
      have hrest := ih hnil.2
      simp only [completed, List.flatMap_cons, hevents] at hrest ⊢
      exact hrest

theorem readAOF_fileAfter {lifetimes : List Lifetime}
    (hnothing : NothingAfterTorn lifetimes) :
    readAOF (fileAfter lifetimes) = ⟨completed lifetimes, false⟩ := by
  induction lifetimes with
  | nil => rfl
  | cons l rest ih =>
      have hfile : fileAfter (l :: rest) =
          encodeAll l.events ++ (l.tail ++ fileAfter rest) := by
        simp only [fileAfter, List.flatMap_cons, Lifetime.bytes, List.append_assoc]
      have hevents : completed (l :: rest) = l.events ++ completed rest := rfl
      rw [hfile, readAOF_encodeAll_append l.fits, hevents]
      by_cases htail : l.tail = []
      · rw [htail, List.nil_append, ih hnothing.of_cons]
      · have hrest := hnothing [] l rest rfl htail
        rw [hrest, List.append_nil, l.readAOF_tail, completed_eq_nil hrest]

/-! ## Torn bytes in front of other records -/

def tornBytes (lifetimes : List Lifetime) : ℕ :=
  (lifetimes.map fun l => l.tail.length).sum

theorem length_fileAfter (lifetimes : List Lifetime) :
    (fileAfter lifetimes).length =
      (encodeAll (completed lifetimes)).length + tornBytes lifetimes := by
  induction lifetimes with
  | nil => rfl
  | cons l rest ih =>
      simp only [fileAfter, completed, List.flatMap_cons, Lifetime.bytes, tornBytes,
        List.map_cons, List.sum_cons, encodeAll_append, List.length_append] at ih ⊢
      omega

theorem length_eq_zero_of_swap {x : Bytes}
    (hswap : ∀ ev : Event, ev.Fits → ∃ rest, encodeRecord ev ++ rest = x ++ encodeRecord ev) :
    x.length = 0 := by
  have hdel : (Event.del []).Fits := ⟨by decide, by decide, by decide, by decide⟩
  have hset : (Event.set [] [] 0).Fits := ⟨by decide, by decide, by decide, by decide⟩
  obtain ⟨rest, hrest⟩ := hswap _ hdel
  obtain ⟨rest', hrest'⟩ := hswap _ hset
  have hfifth : (x ++ encodeRecord (Event.del []))[4]? = some 1 := by
    rw [← hrest]
    rfl
  have hfifth' : (x ++ encodeRecord (Event.set [] [] 0))[4]? = some 0 := by
    rw [← hrest']
    rfl
  match x with
  | [] => rfl
  | [a] => cases hfifth
  | [a, b] => cases hfifth
  | [a, b, c] => cases hfifth
  | [a, b, c, d] => cases hfifth
  | a :: b :: c :: d :: e :: more =>
      have hone : e = 1 := by simpa using hfifth
      have hzero : e = 0 := by simpa using hfifth'
      rw [hone] at hzero
      contradiction

theorem tornBytes_eq_zero {lifetimes : List Lifetime}
    (hread : ∀ ev : Event, ev.Fits →
      (readAOF (fileAfter lifetimes ++ encodeRecord ev)).events =
        completed lifetimes ++ [ev]) :
    tornBytes lifetimes = 0 := by
  have hlength := length_fileAfter lifetimes
  have hevent : ∀ ev : Event, ev.Fits →
      ∃ rest, encodeAll (completed lifetimes) ++ (encodeRecord ev ++ rest) =
        fileAfter lifetimes ++ encodeRecord ev := by
    intro ev hfits
    have hpart := encodeAll_readAOF_part (fileAfter lifetimes ++ encodeRecord ev)
    rw [hread ev hfits, encodeAll_append] at hpart
    obtain ⟨rest, hrest⟩ := hpart
    refine ⟨rest, ?_⟩
    rw [← hrest]
    simp [encodeAll]
  have hsplit : fileAfter lifetimes = encodeAll (completed lifetimes) ++
      (fileAfter lifetimes).drop (encodeAll (completed lifetimes)).length := by
    obtain ⟨rest, hrest⟩ := hevent (Event.del []) ⟨by decide, by decide, by decide, by decide⟩
    have htake := congrArg (List.take (encodeAll (completed lifetimes)).length) hrest
    rw [List.take_left, List.take_append_of_le_length (by omega)] at htake
    have hboth := List.take_append_drop (encodeAll (completed lifetimes)).length
      (fileAfter lifetimes)
    rw [← htake] at hboth
    exact hboth.symm
  have hzero : ((fileAfter lifetimes).drop
      (encodeAll (completed lifetimes)).length).length = 0 := by
    apply length_eq_zero_of_swap
    intro ev hfits
    obtain ⟨rest, hrest⟩ := hevent ev hfits
    rw [hsplit, List.append_assoc] at hrest
    exact ⟨rest, List.append_cancel_left hrest⟩
  rw [List.length_drop] at hzero
  omega

theorem tornBytes_eq_zero_iff {lifetimes : List Lifetime} :
    tornBytes lifetimes = 0 ↔ ∀ l ∈ lifetimes, l.tail = [] := by
  simp [tornBytes, List.sum_eq_zero_iff]

/-- A file with torn bytes only at its end is read exactly, and a file can be
appended to without loss exactly when it has no torn bytes at all. -/
theorem readAOF_lifetimes (lifetimes : List Lifetime) :
    (NothingAfterTorn lifetimes →
        readAOF (fileAfter lifetimes) = ⟨completed lifetimes, false⟩) ∧
      ((∀ events : List Event, (∀ ev ∈ events, ev.Fits) →
          readAOF (fileAfter lifetimes ++ encodeAll events) =
            ⟨completed lifetimes ++ events, false⟩) ↔
        ∀ l ∈ lifetimes, l.tail = []) := by
  refine ⟨readAOF_fileAfter, ?_, ?_⟩
  · intro hread
    rw [← tornBytes_eq_zero_iff]
    apply tornBytes_eq_zero
    intro ev hfits
    have hone := hread [ev] fun other hmem => by
      rw [List.mem_singleton.mp hmem]
      exact hfits
    rw [encodeAll_cons, encodeAll_nil, List.append_nil] at hone
    rw [hone]
  · intro huntorn events hfits
    have hfile : fileAfter lifetimes = encodeAll (completed lifetimes) := by
      induction lifetimes with
      | nil => rfl
      | cons l rest ih =>
          have hrest := ih fun other hmem => huntorn other (List.mem_cons_of_mem l hmem)
          simp only [fileAfter, completed, List.flatMap_cons, Lifetime.bytes,
            huntorn l List.mem_cons_self, List.append_nil, encodeAll_append] at hrest ⊢
          rw [hrest]
    have hall : ∀ ev ∈ completed lifetimes ++ events, ev.Fits := by
      intro ev hmem
      rcases List.mem_append.mp hmem with hmem | hmem
      · obtain ⟨l, _, hev⟩ := List.mem_flatMap.mp hmem
        exact l.fits ev hev
      · exact hfits ev hmem
    rw [hfile, ← encodeAll_append, readAOF_encodeAll hall]

/-! ## A record lost behind a torn one -/

def crashedInLength : Lifetime where
  events := []
  tail := [0, 0, 0, 27]
  fits := by simp
  torn := ⟨.set [107] [118] 0, ⟨by decide, by decide, by decide, by decide⟩,
    by decide, by decide⟩

def oneRecord : Lifetime where
  events := [⟨1, .opSet, [97], [49], 0⟩]
  tail := []
  fits := by
    intro ev hmem
    rw [List.mem_singleton.mp hmem]
    exact ⟨by decide, by decide, by decide, by decide⟩
  torn := ⟨.del [], ⟨by decide, by decide, by decide, by decide⟩, by decide, by decide⟩

/-- The complete record is lost, and an event is delivered that nobody wrote. -/
theorem record_lost_behind_torn :
    completed [crashedInLength, oneRecord] = [⟨1, .opSet, [97], [49], 0⟩] ∧
      readAOF (fileAfter [crashedInLength, oneRecord]) =
        ⟨[⟨29686813949952, .opSet, [0], [0], 4294967296⟩], false⟩ := by
  decide +kernel

theorem readAOF_lifetimes_tornAtEnd :
    readAOF (fileAfter [oneRecord, crashedInLength]) =
      ⟨completed [oneRecord, crashedInLength], false⟩ := by
  apply (readAOF_lifetimes [oneRecord, crashedInLength]).1
  intro before l after hsplit htail
  match before with
  | [] =>
      obtain ⟨rfl, _⟩ := List.cons.inj hsplit
      exact absurd rfl htail
  | [first] =>
      obtain ⟨_, hrest⟩ := List.cons.inj hsplit
      obtain ⟨_, rfl⟩ := List.cons.inj hrest
      rfl
  | first :: second :: more =>
      have hlength := congrArg List.length hsplit
      simp at hlength

end Persistence
end DistCache
