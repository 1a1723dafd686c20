import Rocksdb.DbFormat

/-! Replay of a manifest (`VersionEditHandlerBase::Iterate` of
`db/version_edit_handler.cc` with the `AtomicGroupReadBuffer` of
`db/version_set.cc`). Edits are applied one by one, but those of an atomic group
are kept until the last of them has been read. -/
namespace Rocksdb.ManifestReplay
open List

/-- What the replay asks of a record and of the edit in it. -/
structure Format (ρ ε : Type) where
  decodeFrom : ρ → Except Status ε
  isInAtomicGroup : ε → Bool
  remainingEntries : ε → Nat

/-- The virtual functions of `VersionEditHandlerBase`, with the state of the
handler. -/
structure Handler (ε δ : Type) where
  applyVersionEdit : ε → δ → Status × δ
  onAtomicGroupReplayBegin : δ → Status × δ
  onAtomicGroupReplayEnd : δ → Status × δ
  checkIterationResult : Status → δ → Status × δ

variable {ρ ε δ : Type}

/-! ## The replay -/

/-- `AtomicGroupReadBuffer`. -/
structure AtomicGroupReadBuffer (ε : Type) where
  readEditsInAtomicGroup : Nat
  replayBuffer : List ε

/-- `AtomicGroupReadBuffer::Clear`. -/
def AtomicGroupReadBuffer.empty : AtomicGroupReadBuffer ε := ⟨0, []⟩

/-- `AtomicGroupReadBuffer::IsFull`. -/
def AtomicGroupReadBuffer.isFull (b : AtomicGroupReadBuffer ε) : Bool :=
  b.readEditsInAtomicGroup = b.replayBuffer.length

section Replay
variable [Inhabited ε] (format : Format ρ ε) (handler : Handler ε δ)

/-- `AtomicGroupReadBuffer::AddEdit`. Counters have 32 bits. -/
def addEdit (b : AtomicGroupReadBuffer ε) (edit : ε) : Status × AtomicGroupReadBuffer ε :=
  if format.isInAtomicGroup edit then
    let replayBuffer :=
      if b.replayBuffer.isEmpty then List.replicate ((format.remainingEntries edit + 1) % 2 ^ 32) default
      else b.replayBuffer
    let read := b.readEditsInAtomicGroup + 1
    if read + format.remainingEntries edit ≠ replayBuffer.length % 2 ^ 32 then
      (.corruption "corrupted atomic group", ⟨read, replayBuffer⟩)
    else (.ok, ⟨read, replayBuffer.set (read - 1) edit⟩)
  else if !b.replayBuffer.isEmpty then (.corruption "corrupted atomic group", b)
  else (.ok, b)

/-- Applies edits until one of them fails. -/
def applyAll : List ε → δ → Status × δ
  | [], d => (.ok, d)
  | edit :: edits, d =>
    match handler.applyVersionEdit edit d with
    | (.ok, d) => applyAll edits d
    | failed => failed

/-- Applies the edits of a group. -/
def applyGroup (edits : List ε) (d : δ) : Status × δ :=
  match handler.onAtomicGroupReplayBegin d with
  | (.ok, d) =>
    match applyAll handler edits d with
    | (.ok, d) => handler.onAtomicGroupReplayEnd d
    | failed => failed
  | failed => failed

/-- The body of the loop of `Iterate`, for an edit. The buffer is cleared before
the end of the replay of a group is announced. -/
def replayEdit (b : AtomicGroupReadBuffer ε) (edit : ε) (d : δ) : Status × AtomicGroupReadBuffer ε × δ :=
  match addEdit format b edit with
  | (.ok, b) =>
    if format.isInAtomicGroup edit then
      if b.isFull then
        let (status, d) := applyGroup handler b.replayBuffer d
        (status, .empty, d)
      else (.ok, b, d)
    else
      let (status, d) := handler.applyVersionEdit edit d
      (status, b, d)
  | (status, b) => (status, b, d)

/-- A record of the manifest: where the one before it ends, and the status of the
reader after it was read. -/
structure ManifestRecord (ρ : Type) where
  lastRecordEnd : Nat
  record : ρ
  logReadStatus : Status

/-- The loop of `Iterate`. -/
def iterateLoop (maxManifestReadSize : Nat) : List (ManifestRecord ρ) → AtomicGroupReadBuffer ε → δ → Status × δ
  | [], _, d => (.ok, d)
  | r :: records, b, d =>
    if r.lastRecordEnd < maxManifestReadSize then
      if r.logReadStatus = .ok then
        match format.decodeFrom r.record with
        | .error status => (status, d)
        | .ok edit =>
          match replayEdit format handler b edit d with
          | (.ok, b, d) => iterateLoop maxManifestReadSize records b d
          | (status, _, d) => (status, d)
      else (r.logReadStatus, d)
    else (.ok, d)

/-- The end of `Iterate`, which names the file in a corruption. -/
def finish (fileName : String) (status : Status) (d : δ) : Status × δ :=
  let (status, d) := handler.checkIterationResult status d
  match status with
  | .corruption message => (.corruption (message ++ "  The file " ++ fileName ++ " may be corrupted."), d)
  | status => (status, d)

/-- `VersionEditHandlerBase::Iterate`, after `Initialize`. -/
def iterate (fileName : String) (maxManifestReadSize : Nat) (records : List (ManifestRecord ρ)) (d : δ) :
    Status × δ :=
  let (status, d) := iterateLoop format handler maxManifestReadSize records .empty d
  finish handler fileName status d

end Replay

/-! ## What a replay should do -/

section Spec
variable (format : Format ρ ε)

/-- These are the first edits of a group of `n` edits: their counters go down to
zero one by one. -/
def CountsDown : Nat → List ε → Prop
  | _, [] => True
  | 0, _ :: _ => False
  | n + 1, edit :: edits =>
    format.isInAtomicGroup edit = true ∧ format.remainingEntries edit = n ∧ CountsDown n edits

/-- An atomic group, all of it. -/
def IsGroup (edits : List ε) : Prop := edits ≠ [] ∧ CountsDown format edits.length edits

/-- The edit is the one that should follow when `n` edits of a group are missing. -/
def Fits (n : Nat) (edit : ε) : Prop := format.isInAtomicGroup edit = true ∧ format.remainingEntries edit + 1 = n

variable (handler : Handler ε δ)

/-- Steps are made one after the other until one of them fails. -/
inductive Chain : List (δ → Status × δ) → δ → Status × δ → Prop where
  | done {d : δ} : Chain [] d (.ok, d)
  | step {f : δ → Status × δ} {steps : List (δ → Status × δ)} {d d₁ : δ} {result : Status × δ} (made : f d = (.ok, d₁))
      (later : Chain steps d₁ result) : Chain (f :: steps) d result
  | fails {f : δ → Status × δ} {steps : List (δ → Status × δ)} {d : δ} (failed : (f d).1 ≠ .ok) :
      Chain (f :: steps) d (f d)

/-- The steps of a group: its begin, each of its edits in order, and its end. -/
def groupSteps (members : List ε) : List (δ → Status × δ) :=
  handler.onAtomicGroupReplayBegin :: (members.map handler.applyVersionEdit ++ [handler.onAtomicGroupReplayEnd])

/-- A replay of edits: single edits and whole groups are applied in the order of
the records, until one of them fails. A group that is not complete at the end is
not applied, and nothing is applied behind an edit that does not continue an open
group. -/
inductive Replays : List ε → δ → Status → δ → Prop where
  | done {d : δ} : Replays [] d .ok d
  | edit {edit : ε} {edits : List ε} {d d₁ d' : δ} {status : Status}
      (normal : format.isInAtomicGroup edit = false) (applied : handler.applyVersionEdit edit d = (.ok, d₁))
      (later : Replays edits d₁ status d') : Replays (edit :: edits) d status d'
  | editFails {edit : ε} {edits : List ε} {d d' : δ} {status : Status}
      (normal : format.isInAtomicGroup edit = false) (failed : handler.applyVersionEdit edit d = (status, d'))
      (notOk : status ≠ .ok) : Replays (edit :: edits) d status d'
  | group {members edits : List ε} {d d₁ d' : δ} {status : Status} (isGroup : IsGroup format members)
      (applied : Chain (groupSteps handler members) d (.ok, d₁)) (later : Replays edits d₁ status d') :
      Replays (members ++ edits) d status d'
  | groupFails {members edits : List ε} {d d' : δ} {status : Status} (isGroup : IsGroup format members)
      (failed : Chain (groupSteps handler members) d (status, d')) (notOk : status ≠ .ok) :
      Replays (members ++ edits) d status d'
  | incomplete {members : List ε} {n : Nat} {d : δ} (begun : members ≠ [])
      (counts : CountsDown format (members.length + (n + 1)) members) : Replays members d .ok d
  | misfit {members edits : List ε} {edit : ε} {n : Nat} {d : δ} (begun : members ≠ [])
      (counts : CountsDown format (members.length + (n + 1)) members) (misfit : ¬ Fits format (n + 1) edit) :
      Replays (members ++ edit :: edits) d (.corruption "corrupted atomic group") d

/-- The edits that are read from a manifest, and how reading ends. -/
def readEdits (maxManifestReadSize : Nat) : List (ManifestRecord ρ) → List ε × Status
  | [] => ([], .ok)
  | r :: records =>
    if r.lastRecordEnd < maxManifestReadSize then
      if r.logReadStatus = .ok then
        match format.decodeFrom r.record with
        | .error status => ([], status)
        | .ok edit => ((readEdits maxManifestReadSize records).1.cons edit, (readEdits maxManifestReadSize records).2)
      else ([], r.logReadStatus)
    else ([], .ok)

end Spec

/-! ## The replay does it -/

section Proofs
variable {format : Format ρ ε} {handler : Handler ε δ}

variable {edit : ε} {edits : List ε}

/-- The first counter tells the number of edits. -/
theorem countsDown_first (counts : CountsDown format n (edit :: edits)) : Fits format n edit := by
  cases n with
  | zero => exact counts.elim
  | succ => exact ⟨counts.1, by rw [counts.2.1]⟩

/-- Some edits go on with a group: they complete it, they end inside of it, or one
of them does not fit. -/
theorem countsDown_split (format : Format ρ ε) (n : Nat) (edits : List ε) :
    (∃ members rest, edits = members ++ rest ∧ members.length = n ∧ CountsDown format n members) ∨
      (∃ missing, n = edits.length + (missing + 1) ∧ CountsDown format n edits) ∨
      ∃ members edit rest missing, edits = members ++ edit :: rest ∧ n = members.length + (missing + 1) ∧
        CountsDown format n members ∧ ¬ Fits format (missing + 1) edit := by
  induction n generalizing edits with
  | zero => exact .inl ⟨[], edits, rfl, rfl, trivial⟩
  | succ n ih =>
    cases edits with
    | nil => exact .inr (.inl ⟨n, by simp, trivial⟩)
    | cons edit edits =>
      by_cases fits : Fits format (n + 1) edit
      · obtain ⟨inGroup, _⟩ := fits
        have counter : format.remainingEntries edit = n := by omega
        rcases ih edits with ⟨members, rest, rfl, length, counts⟩ | ⟨missing, length, counts⟩ |
          ⟨members, misfit, rest, missing, rfl, length, counts, unfit⟩
        · exact .inl ⟨edit :: members, rest, rfl, by rw [length_cons, length], inGroup, counter, counts⟩
        · refine .inr (.inl ⟨missing, ?_, inGroup, counter, counts⟩)
          rw [length_cons]
          omega
        · refine .inr (.inr ⟨edit :: members, misfit, rest, missing, rfl, ?_, ⟨inGroup, counter, counts⟩, unfit⟩)
          rw [length_cons]
          omega
      · exact .inr (.inr ⟨[], edit, edits, n, rfl, by simp, trivial, fits⟩)

variable {members : List ε}

/-- The first edit of a group says how many there are. -/
theorem countsDown_small (counts : CountsDown format n members)
    (begun : members ≠ []) (small : ∀ edit ∈ members ++ edits, format.remainingEntries edit < 2 ^ 32 - 1) :
    n < 2 ^ 32 := by
  cases members with
  | nil => exact absurd rfl begun
  | cons edit =>
    have bound := small edit (mem_append_left _ mem_cons_self)
    have counter := (countsDown_first counts).2
    omega

/-- What follows a step that may fail. -/
def andThen (first : Status × δ) (later : δ → Status × δ) : Status × δ :=
  match first with
  | (.ok, d) => later d
  | failed => failed

theorem andThen_ok (d : δ) (later : δ → Status × δ) : andThen (.ok, d) later = later d := rfl

theorem andThen_failed (notOk : status ≠ .ok) (d : δ) (later : δ → Status × δ) :
    andThen (status, d) later = (status, d) := by
  cases status <;> first | rfl | exact absurd rfl notOk

variable {steps : List (δ → Status × δ)} {f later : δ → Status × δ}

theorem Chain.unique (first : Chain steps d result) (second : Chain steps d result') : result = result' := by
  induction first with
  | done =>
    cases second
    rfl
  | step made _ ih =>
    cases second with
    | step made' later =>
      rw [made] at made'
      cases made'
      exact ih later
    | fails failed => exact absurd (congrArg Prod.fst made) failed
  | fails failed =>
    cases second with
    | step made => exact absurd (congrArg Prod.fst made) failed
    | fails => rfl

theorem Chain.andThen (rest : ∀ d, Chain steps d (later d)) (d : δ) : Chain (f :: steps) d (andThen (f d) later) := by
  rcases made : f d with ⟨status, d₁⟩
  by_cases isOk : status = .ok
  · subst isOk
    exact .step made (rest d₁)
  · rw [andThen_failed isOk, ← made]
    exact .fails (by rwa [made])

/-- Applying a group makes its steps. -/
theorem applyGroup_chain (handler : Handler ε δ) (members : List ε) (d : δ) :
    Chain (groupSteps handler members) d (applyGroup handler members d) := by
  have last (d : δ) : Chain [handler.onAtomicGroupReplayEnd] d (handler.onAtomicGroupReplayEnd d) := by
    by_cases isOk : (handler.onAtomicGroupReplayEnd d).1 = .ok
    · have made : handler.onAtomicGroupReplayEnd d = (.ok, (handler.onAtomicGroupReplayEnd d).2) := Prod.ext isOk rfl
      exact made ▸ .step made .done
    · exact .fails isOk
  have inner (d : δ) : Chain (members.map handler.applyVersionEdit ++ [handler.onAtomicGroupReplayEnd]) d
      (ManifestReplay.andThen (applyAll handler members d) handler.onAtomicGroupReplayEnd) := by
    induction members generalizing d with
    | nil => exact last d
    | cons edit edits ih =>
      have first : ManifestReplay.andThen (applyAll handler (edit :: edits) d) handler.onAtomicGroupReplayEnd =
          ManifestReplay.andThen (handler.applyVersionEdit edit d) fun d =>
            ManifestReplay.andThen (applyAll handler edits d) handler.onAtomicGroupReplayEnd := by
        rw [applyAll]
        rcases handler.applyVersionEdit edit d with ⟨status, _⟩
        cases status <;> rfl
      rw [first]
      exact Chain.andThen ih d
  exact Chain.andThen inner d

/-- There is always a way to replay. -/
theorem exists_replays (format : Format ρ ε) (handler : Handler ε δ) (edits : List ε) (d : δ) :
    ∃ status d', Replays format handler edits d status d' := by
  induction length : edits.length using Nat.strong_induction_on generalizing edits d with
  | _ _ ih =>
    subst length
    cases edits with
    | nil => exact ⟨.ok, d, .done⟩
    | cons edit edits =>
      cases inGroup : format.isInAtomicGroup edit with
      | false =>
        rcases applied : handler.applyVersionEdit edit d with ⟨status, d₁⟩
        by_cases isOk : status = .ok
        · subst isOk
          obtain ⟨status, d', later⟩ := ih edits.length (by simp) edits d₁ rfl
          exact ⟨status, d', .edit inGroup applied later⟩
        · exact ⟨status, d₁, .editFails inGroup applied isOk⟩
      | true =>
        have first {n : Nat} {members : List ε} (isCounter : format.remainingEntries edit = n)
            (counts : CountsDown format n members) : CountsDown format (n + 1) (edit :: members) :=
          ⟨inGroup, isCounter, counts⟩
        rcases countsDown_split format (format.remainingEntries edit) edits with
          ⟨members, rest, rfl, length, counts⟩ | ⟨missing, length, counts⟩ |
          ⟨members, misfit, rest, missing, rfl, length, counts, unfit⟩
        · have isGroup : IsGroup format (edit :: members) := ⟨by simp, by
            rw [length_cons, length]
            exact first rfl counts⟩
          have applied := applyGroup_chain handler (edit :: members) d
          rcases isResult : applyGroup handler (edit :: members) d with ⟨status, d₁⟩
          rw [isResult] at applied
          by_cases isOk : status = .ok
          · subst isOk
            obtain ⟨status, d', later⟩ := ih rest.length (by simp only [length_cons, length_append]; omega) rest d₁ rfl
            exact ⟨status, d', .group isGroup applied later⟩
          · exact ⟨status, d₁, .groupFails isGroup applied isOk⟩
        · refine ⟨.ok, d, .incomplete (n := missing) (by simp) ?_⟩
          rw [length_cons, show edits.length + 1 + (missing + 1) = edits.length + (missing + 1) + 1 by omega]
          exact first length (length ▸ counts)
        · refine ⟨_, d, .misfit (cons_ne_nil edit members) ?_ unfit⟩
          rw [length_cons, show members.length + 1 + (missing + 1) = members.length + (missing + 1) + 1 by omega]
          exact first length (length ▸ counts)

variable [Inhabited ε]

/-- Some edits of a group are in the buffer, and others are missing. -/
def held (members : List ε) (missing : Nat) : AtomicGroupReadBuffer ε :=
  ⟨members.length, members ++ List.replicate missing default⟩

private theorem addEdit_normal (normal : format.isInAtomicGroup edit = false) :
    addEdit format .empty edit = (.ok, .empty) := by
  simp [addEdit, normal, AtomicGroupReadBuffer.empty]

/-- The first edit of a group makes room for all of them. -/
theorem addEdit_first (fits : Fits format (n + 1) edit) (small : n + 1 < 2 ^ 32) :
    addEdit format .empty edit = addEdit format (held [] (n + 1)) edit := by
  obtain ⟨inGroup, remaining⟩ := fits
  simp [-Nat.reducePow, addEdit, inGroup, remaining, AtomicGroupReadBuffer.empty, held, Nat.mod_eq_of_lt small]

private theorem addEdit_fits (fits : Fits format (n + 1) edit) (small : members.length + (n + 1) < 2 ^ 32) :
    addEdit format (held members (n + 1)) edit = (.ok, held (members ++ [edit]) n) := by
  obtain ⟨inGroup, _⟩ := fits
  have counts : members.length + 1 + format.remainingEntries edit = members.length + (n + 1) := by omega
  simp [-Nat.reducePow, addEdit, inGroup, held, counts, Nat.mod_eq_of_lt small, replicate_succ]

private theorem addEdit_misfit (misfit : ¬ Fits format (n + 1) edit) (small : members.length + (n + 1) < 2 ^ 32) :
    ∃ b, addEdit format (held members (n + 1)) edit = (.corruption "corrupted atomic group", b) := by
  by_cases inGroup : format.isInAtomicGroup edit = true
  · have counts : members.length + 1 + format.remainingEntries edit ≠ members.length + (n + 1) :=
      fun _ => misfit ⟨inGroup, by omega⟩
    simp [-Nat.reducePow, addEdit, inGroup, held, counts, Nat.mod_eq_of_lt small]
  · simp [addEdit, inGroup, held]

/-- The loop of `Iterate` over edits that have been read. -/
def replayAll (format : Format ρ ε) (handler : Handler ε δ) : List ε → AtomicGroupReadBuffer ε → δ → Status × δ
  | [], _, d => (.ok, d)
  | edit :: edits, b, d =>
    match replayEdit format handler b edit d with
    | (.ok, b, d) => replayAll format handler edits b d
    | (status, _, d) => (status, d)

private theorem iterateLoop_eq (maxManifestReadSize : Nat) (records : List (ManifestRecord ρ))
    (b : AtomicGroupReadBuffer ε)
    (d : δ) :
    iterateLoop format handler maxManifestReadSize records b d =
      andThen (replayAll format handler (readEdits format maxManifestReadSize records).1 b d)
        fun d => ((readEdits format maxManifestReadSize records).2, d) := by
  induction records generalizing b d with
  | nil => rfl
  | cons _ _ ih =>
    unfold iterateLoop readEdits
    split
    · split
      · split
        · rfl
        · next edit _ =>
          rcases replayed : replayEdit format handler b edit d with ⟨status, b', d'⟩
          simp only [replayAll, replayed]
          cases status <;> first | exact ih b' d' | rfl
      · rfl
    · rfl

private theorem replayAll_normal (normal : format.isInAtomicGroup edit = false) (edits : List ε) (d : δ) :
    replayAll format handler (edit :: edits) .empty d =
      andThen (handler.applyVersionEdit edit d) fun d => replayAll format handler edits .empty d := by
  rcases applied : handler.applyVersionEdit edit d with ⟨status, _⟩
  simp only [replayAll, replayEdit, addEdit_normal normal, normal, Bool.false_eq_true, if_false, applied]
  cases status <;> rfl

theorem replayAll_first (fits : Fits format (n + 1) edit) (small : n + 1 < 2 ^ 32) (edits : List ε) (d : δ) :
    replayAll format handler (edit :: edits) .empty d =
      replayAll format handler (edit :: edits) (held [] (n + 1)) d := by
  simp only [replayAll, replayEdit, addEdit_first fits small]

theorem replayAll_fits (fits : Fits format (n + 1) edit)
    (small : members.length + (n + 1) < 2 ^ 32) (edits : List ε) (d : δ) :
    replayAll format handler (edit :: edits) (held members (n + 1)) d = if n = 0 then
        andThen (applyGroup handler (members ++ [edit]) d) fun d => replayAll format handler edits .empty d
      else replayAll format handler edits (held (members ++ [edit]) n) d := by
  have full : (held (members ++ [edit]) n).isFull = decide (n = 0) := by
    simp [AtomicGroupReadBuffer.isFull, held]
  simp only [replayAll, replayEdit, addEdit_fits fits small, fits.1, full, if_true, decide_eq_true_eq]
  by_cases last : n = 0
  · subst last
    simp only [held, replicate_zero, append_nil, if_true]
    rcases applied : applyGroup handler (members ++ [edit]) d with ⟨status, _⟩
    cases status <;> rfl
  · rw [if_neg last, if_neg last]

/-- Edits of an open group are kept. -/
theorem replayAll_open (counts : CountsDown format (more.length + (n + 1)) more)
    (small : members.length + (more.length + (n + 1)) < 2 ^ 32) (edits : List ε) (d : δ) :
    replayAll format handler (more ++ edits) (held members (more.length + (n + 1))) d =
      replayAll format handler edits (held (members ++ more) (n + 1)) d := by
  induction more generalizing members with
  | nil => simp
  | cons edit more ih =>
    have shift : (edit :: more).length + (n + 1) = more.length + (n + 1) + 1 := by
      rw [length_cons]
      omega
    rw [shift] at counts small ⊢
    obtain ⟨inGroup, remaining, counts⟩ := counts
    rw [cons_append, replayAll_fits ⟨inGroup, by rw [remaining]⟩ small, if_neg (by omega),
      ih counts (by rw [length_append, length_singleton]; omega), append_assoc]
    rfl

/-- The last edit of a group makes all of them be applied. -/
theorem replayAll_rest (counts : CountsDown format more.length more) (nonempty : more ≠ [])
    (small : members.length + more.length < 2 ^ 32) (edits : List ε) (d : δ) :
    replayAll format handler (more ++ edits) (held members more.length) d =
      andThen (applyGroup handler (members ++ more) d) fun d => replayAll format handler edits .empty d := by
  induction more generalizing members with
  | nil => exact absurd rfl nonempty
  | cons _ more ih =>
    obtain ⟨inGroup, remaining, counts⟩ := counts
    rw [cons_append, length_cons, replayAll_fits ⟨inGroup, by rw [remaining]⟩ small]
    cases more with
    | nil => rfl
    | cons next more =>
      rw [if_neg (by simp), ih counts (by simp) (by simp at small ⊢; omega), append_assoc]
      rfl

private theorem replayAll_group (isGroup : IsGroup format members) (small : members.length < 2 ^ 32)
    (edits : List ε) (d : δ) :
    replayAll format handler (members ++ edits) .empty d =
      andThen (applyGroup handler members d) fun d => replayAll format handler edits .empty d := by
  obtain ⟨begun, counts⟩ := isGroup
  cases members with
  | nil => exact absurd rfl begun
  | cons =>
    rw [cons_append, replayAll_first (countsDown_first counts) small, ← cons_append]
    exact replayAll_rest counts begun (by simpa using small) edits d

private theorem replayAll_begun (begun : members ≠ [])
    (counts : CountsDown format (members.length + (n + 1)) members) (small : members.length + (n + 1) < 2 ^ 32)
    (edits : List ε) (d : δ) :
    replayAll format handler (members ++ edits) .empty d = replayAll format handler edits (held members (n + 1)) d := by
  cases members with
  | nil => exact absurd rfl begun
  | cons edit members =>
    rw [cons_append, replayAll_first (countsDown_first counts) small,
      ← cons_append]
    have kept : replayAll format handler ((edit :: members) ++ edits) (held [] _) d = _ :=
      replayAll_open counts (by simpa using small) edits d
    exact kept

/-- What a replay should do is what it does. -/
theorem replayAll_eq (small : ∀ edit ∈ edits, format.remainingEntries edit < 2 ^ 32 - 1)
    (replays : Replays format handler edits d status d') :
    replayAll format handler edits .empty d = (status, d') := by
  induction replays with
  | done => rfl
  | edit normal applied _ ih =>
    rw [replayAll_normal normal, applied, andThen_ok]
    exact ih fun e member => small e (mem_cons_of_mem _ member)
  | editFails normal failed notOk => rw [replayAll_normal normal, failed, andThen_failed notOk]
  | group isGroup applied _ ih =>
    rw [replayAll_group isGroup (countsDown_small isGroup.2 isGroup.1 small), (applyGroup_chain ..).unique applied,
      andThen_ok]
    exact ih fun e member => small e (mem_append_right _ member)
  | groupFails isGroup failed notOk =>
    rw [replayAll_group isGroup (countsDown_small isGroup.2 isGroup.1 small), (applyGroup_chain ..).unique failed,
      andThen_failed notOk]
  | @incomplete members _ _ begun counts =>
    rw [← append_nil members] at small
    rw [← append_nil members, replayAll_begun begun counts (countsDown_small counts begun small)]
    rfl
  | misfit begun counts misfit =>
    have bound := countsDown_small counts begun small
    obtain ⟨_, added⟩ := addEdit_misfit misfit bound
    rw [replayAll_begun begun counts bound]
    simp only [replayAll, replayEdit, added]

/-- The records of a manifest whose counters are in range. -/
structure Manifest (format : Format ρ ε) (maxManifestReadSize : Nat) where
  records : List (ManifestRecord ρ)
  small : ∀ edit ∈ (readEdits format maxManifestReadSize records).1, format.remainingEntries edit < 2 ^ 32 - 1

/-- **Atomic groups are replayed all or nothing.** What `Iterate` does with the
edits it reads is the one thing that a replay should do: single edits and whole
groups are applied in the order of the records, a group that is cut off is not
applied at all, and an edit that does not continue an open group is reported as a
corruption before anything of the group is applied. If no edit stops the replay,
the status is that of reading. -/
theorem manifest_replays (fileName : String) {maxManifestReadSize : Nat}
    (manifest : Manifest format maxManifestReadSize) (d : δ) :
    ∃ status d',
      (∀ status' d'', Replays format handler (readEdits format maxManifestReadSize manifest.records).1 d status' d'' ↔
        status' = status ∧ d'' = d') ∧
      iterate format handler fileName maxManifestReadSize manifest.records d = finish handler fileName
          (if status = .ok then (readEdits format maxManifestReadSize manifest.records).2 else status) d' := by
  obtain ⟨status, d', replays⟩ :=
    exists_replays format handler (readEdits format maxManifestReadSize manifest.records).1 d
  have ran := replayAll_eq manifest.small replays
  refine ⟨status, d', fun _ _ => ⟨fun other => ?_, fun same => ?_⟩, ?_⟩
  · have ran' := replayAll_eq manifest.small other
    rw [ran] at ran'
    cases ran'
    exact ⟨rfl, rfl⟩
  · rw [same.1, same.2]
    exact replays
  · rw [iterate, iterateLoop_eq, ran]
    by_cases isOk : status = .ok
    · rw [isOk, if_pos rfl, andThen_ok]
    · rw [if_neg isOk, andThen_failed isOk]

/-- Edits that are numbers, with their counter if they are in a group. -/
def numbers : Format (Option Nat × Nat) (Option Nat × Nat) := ⟨.ok, (·.1.isSome), (·.1.getD 0)⟩

/-- A single edit, a group of two, and two edits of a group of three. -/
def cutOff : Manifest numbers 100 where
  records := [⟨0, (none, 1), .ok⟩, ⟨10, (some 1, 2), .ok⟩, ⟨20, (some 0, 3), .ok⟩, ⟨30, (some 2, 4), .ok⟩,
    ⟨40, (some 1, 5), .ok⟩]
  small := by decide

/-- Lists what is applied. -/
def listing : Handler (Option Nat × Nat) (List Nat) :=
  ⟨fun edit d => (.ok, d ++ [edit.2]), (.ok, ·), (.ok, ·), Prod.mk⟩

theorem cutOff_replays : ∃ status d', (∀ status' d'',
      Replays numbers listing (readEdits numbers 100 cutOff.records).1 [] status' d'' ↔ status' = status ∧ d'' = d') ∧
    (.ok, [1, 2, 3]) = finish listing "MANIFEST"
      (if status = .ok then (readEdits numbers 100 cutOff.records).2 else status) d' :=
  manifest_replays "MANIFEST" cutOff []

/-! ## Writes to the buffer -/

/-- The buffers of a replay: edits are added as long as none is rejected. -/
inductive Buffered (format : Format ρ ε) : AtomicGroupReadBuffer ε → Prop where
  | cleared : Buffered format .empty
  | added {b b' : AtomicGroupReadBuffer ε} {edit : ε} (buffered : Buffered format b)
      (adds : addEdit format b edit = (.ok, b')) : Buffered format b'

/-- A group is reported as corrupted, or the last edit stands at an index below the
size of the buffer. The count of the edits does not wrap around. -/
def InRange (edit : ε) (added : Status × AtomicGroupReadBuffer ε) : Prop :=
  added.2.readEditsInAtomicGroup < 2 ^ 64 ∧ (added.1 = .corruption "corrupted atomic group" ∨ added.1 = .ok ∧
    ∃ index < added.2.replayBuffer.length, added.2.readEditsInAtomicGroup = index + 1 ∧
      added.2.replayBuffer[index]? = some edit)

theorem addEdit_group (inGroup : format.isInAtomicGroup edit = true) (b : AtomicGroupReadBuffer ε) :
    ∃ buffer, (buffer = b.replayBuffer ∨ buffer.length < 2 ^ 32) ∧
      (addEdit format b edit = (.corruption "corrupted atomic group", ⟨b.readEditsInAtomicGroup + 1, buffer⟩) ∨
        b.readEditsInAtomicGroup < buffer.length ∧ addEdit format b edit =
          (.ok, ⟨b.readEditsInAtomicGroup + 1, buffer.set b.readEditsInAtomicGroup edit⟩)) := by
  rw [addEdit, if_pos inGroup]
  generalize isBuffer : (if b.replayBuffer.isEmpty then _ else b.replayBuffer) = buffer
  refine ⟨buffer, ?_, ?_⟩
  · split at isBuffer <;> subst isBuffer
    · exact .inr (by rw [length_replicate]; exact Nat.mod_lt _ (by decide))
    · exact .inl rfl
  · by_cases counts : b.readEditsInAtomicGroup + 1 + format.remainingEntries edit ≠ buffer.length % 2 ^ 32
    · exact .inl (if_pos counts)
    · have bound := Nat.mod_le buffer.length (2 ^ 32)
      exact .inr ⟨by omega, if_neg counts⟩

theorem Buffered.small (buffered : Buffered format b) :
    b.readEditsInAtomicGroup ≤ b.replayBuffer.length ∧ b.replayBuffer.length < 2 ^ 32 := by
  induction buffered with
  | cleared => exact ⟨le_rfl, Nat.two_pow_pos 32⟩
  | @added b _ edit _ adds ih =>
    by_cases inGroup : format.isInAtomicGroup edit = true
    · obtain ⟨_, size, rejected | ⟨inside, stored⟩⟩ := addEdit_group inGroup b
      · cases rejected.symm.trans adds
      · cases stored.symm.trans adds
        rw [length_set]
        rcases size with rfl | size
        · exact ⟨inside, ih.2⟩
        · exact ⟨inside, size⟩
    · rw [addEdit, if_neg inGroup] at adds
      split at adds <;> cases adds
      exact ih

/-- **The buffer is not written out of range**, whatever the counters of the edits are. -/
theorem group_edits_in_range (buffered : Buffered format b) (inGroup : format.isInAtomicGroup edit = true) :
    InRange edit (addEdit format b edit) := by
  have bounds := buffered.small
  obtain ⟨_, -, rejected | ⟨inside, stored⟩⟩ := addEdit_group inGroup b
  · rw [rejected]
    exact ⟨by dsimp only; omega, .inl rfl⟩
  · rw [stored]
    refine ⟨by dsimp only; omega, .inr ⟨rfl, _, ?_, rfl, getElem?_set_self inside⟩⟩
    rwa [length_set]

def everyGroup : Format Nat Nat := ⟨.ok, fun _ => true, id⟩

/-- The second of three edits. -/
theorem second_edit_in_range : addEdit everyGroup ⟨1, [2, 0, 0]⟩ 1 = (.ok, ⟨2, [2, 1, 0]⟩) ∧
    InRange 1 (addEdit everyGroup ⟨1, [2, 0, 0]⟩ 1) := by
  have first : addEdit everyGroup .empty 2 = (.ok, ⟨1, [2, 0, 0]⟩) := rfl
  exact ⟨rfl, group_edits_in_range (.added .cleared first) rfl⟩

end Proofs

end Rocksdb.ManifestReplay
