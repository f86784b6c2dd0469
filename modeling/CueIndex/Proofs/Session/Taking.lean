import Mathlib
import CueIndex.Proofs.Session.Growth

/-!
# Sessions whose cues have been taken

A session may give its cues away while it reads, and goes on with an empty list.  What it lacks from
then on are the cues that were taken and nothing else: no element looks at any cue but the newest,
and where there is none, an element that would change it changes nothing.  So a session that has
given away its first cues stays, through everything that it reads, one without its first cues.

* `CueList.drop` — cues without the first of them; leaving these out commutes with all that a
  reading does to cues.
* `Session.dropCues` — a session without its first cues.
* **`read_dropCues`**, **`step_dropCues`** — leaving out cues before a call is leaving them out
  after it, which changes neither the outcome nor anything else in the state.
-/

namespace CueIndex

/-! ## Cues without the first of them -/

namespace CueList

variable {list : CueList} {n : ℕ}

/-- The cues without the first `n` of them. -/
def drop (list : CueList) (n : ℕ) : CueList := ⟨(list.toList.drop n).toArray⟩

@[simp] lemma toList_drop (list : CueList) (n : ℕ) : (list.drop n).toList = list.toList.drop n :=
  rfl

@[simp] lemma drop_zero (list : CueList) : list.drop 0 = list := by
  ext1
  rw [toList_drop, List.drop_zero]

lemma drop_length (list : CueList) : list.drop list.length = .empty := by
  ext1
  rw [toList_drop, ← length_toList, List.drop_length, toList_empty]

lemma drop_push (fits : n ≤ list.length) : list.push.drop n = (list.drop n).push := by
  ext1
  rw [toList_drop, toList_push, toList_push, toList_drop,
    List.drop_append_of_le_length (by rwa [length_toList])]

/-- The newest cue is not among the first ones unless there is no other, and then there is none to
change when these are left out. -/
lemma drop_updateNewest (fits : n ≤ list.length) (change : CuePoint → CuePoint) :
    (list.updateNewest change).drop n = (list.drop n).updateNewest change := by
  ext1
  rw [toList_drop]
  by_cases all : n = list.length
  · have nothing : (list.drop n).toList = [] := by
      rw [all, drop_length, toList_empty]
    rw [toList_updateNewest_of_nil nothing]
    refine List.drop_eq_nil_of_le ?_
    rw [length_toList, length_updateNewest, all]
  · rcases list.toList.eq_nil_or_concat with none | ⟨older, newest, shape⟩
    · have length := list.length_toList
      rw [none, List.length_nil] at length
      omega
    · rw [List.concat_eq_append] at shape
      have behind : n ≤ older.length := by
        have length := list.length_toList
        rw [shape, List.length_append, List.length_singleton] at length
        omega
      have later : (list.drop n).toList = older.drop n ++ [newest] := by
        rw [toList_drop, shape, List.drop_append_of_le_length behind]
      rw [toList_updateNewest shape, toList_updateNewest later,
        List.drop_append_of_le_length behind]

end CueList

namespace Session

variable {s last : Session} {ahead bytes : Bytes} {visits : List Visit} {outcome : Outcome} {n : ℕ}

/-! ## Sessions without their first cues -/

/-- The session without the first `n` of its cues. -/
def dropCues (s : Session) (n : ℕ) : Session := { s with cues := s.cues.drop n }

@[simp] lemma dropCues_zero (s : Session) : s.dropCues 0 = s := by
  rw [dropCues, CueList.drop_zero]

/-- Taking the index leaves a session without the cues that it has. -/
lemma takeIndex_snd (s : Session) : s.takeIndex.2 = s.dropCues s.cues.length := by
  rw [dropCues, CueList.drop_length]
  rfl

/-! ## Meeting elements -/

lemma record_dropCues (fits : n ≤ s.cues.length) (header : Header) (payload : Bytes) :
    (s.dropCues n).record header payload = (s.record header payload).dropCues n := by
  unfold record store
  repeat' split
  all_goals
    simp only [dropCues, CueList.drop_push fits, CueList.drop_updateNewest fits]

lemma length_cues_meet (s : Session) (header : Header) (ahead : Bytes) :
    s.cues.length ≤ (s.meet header ahead).cues.length := by
  have length := (s.grows_record header (header.payload ahead)).length
  exact Nat.le.intro length.symm

lemma meet_dropCues (fits : n ≤ s.cues.length) (header : Header) (ahead : Bytes) :
    (s.dropCues n).meet header ahead = (s.meet header ahead).dropCues n := by
  rw [meet, visit, record_dropCues fits]
  rfl

/-! ## Readings -/

/-- No cue is lost in a reading. -/
lemma Reads.length_cues (reads : Reads s ahead visits outcome last) :
    s.cues.length ≤ last.cues.length :=
  Nat.le.intro reads.gains.cues.length.symm

/-- Without its first cues a session reads the same elements, and leaves the same session without
them. -/
lemma Reads.dropCues (reads : Reads s ahead visits outcome last) (fits : n ≤ s.cues.length) :
    ∃ visits', Reads (s.dropCues n) ahead visits' outcome (last.dropCues n) := by
  induction reads with
  | wait move => exact ⟨_, .wait move⟩
  | malformed move => exact ⟨_, .malformed move⟩
  | stop move => exact ⟨_, .stop move⟩
  | @last s ahead header cuesEnd move reached =>
      have still : ((s.dropCues n).meet header ahead).cuesReached? = some cuesEnd := by
        rw [meet_dropCues fits]
        exact reached
      rw [← meet_dropCues fits]
      exact ⟨_, .last move still⟩
  | @meet s last ahead header visits outcome move ongoing later ih =>
      obtain ⟨visits', onward⟩ := ih (fits.trans (s.length_cues_meet header ahead))
      rw [← meet_dropCues fits] at onward
      refine ⟨_, .meet move ?_ onward⟩
      rw [meet_dropCues fits]
      exact ongoing

/-- **A reading by a session without its first cues.** -/
theorem read_dropCues (fits : n ≤ s.cues.length) (ahead : Bytes) :
    ((s.dropCues n).read ahead).session = (s.read ahead).session.dropCues n ∧
      ((s.dropCues n).read ahead).outcome = (s.read ahead).outcome := by
  obtain ⟨visits, reads⟩ := (reads_read s ahead).dropCues fits
  obtain ⟨-, outcome, session⟩ := reads.eq_read
  exact ⟨session, outcome⟩

/-! ## Calls -/

lemma settle_dropCues {one other : Step} (session : other.session = one.session.dropCues n)
    (outcome : other.outcome = one.outcome) :
    (settle other).session = (settle one).session.dropCues n ∧
      (settle other).outcome = (settle one).outcome := by
  refine ⟨?_, by rw [outcome_settle, outcome_settle, outcome]⟩
  rw [session_settle, session_settle, session, outcome, settled, settled]
  split <;> rfl

lemma stepReading_dropCues (fits : n ≤ s.cues.length) (bytes : Bytes) :
    ((s.dropCues n).stepReading (.ofBytes bytes)).session
        = (s.stepReading (.ofBytes bytes)).session.dropCues n ∧
      ((s.dropCues n).stepReading (.ofBytes bytes)).outcome
        = (s.stepReading (.ofBytes bytes)).outcome := by
  by_cases inside : s.resume ≤ bytes.length
  · have inside' : (s.dropCues n).resume ≤ bytes.length := inside
    obtain ⟨session, outcome⟩ := read_dropCues fits (bytes.drop s.resume)
    rw [stepReading_ofBytes inside, stepReading_ofBytes inside']
    exact settle_dropCues session outcome
  · have outside : bytes.length < s.resume := Nat.lt_of_not_le inside
    have outside' : bytes.length < (s.dropCues n).resume := outside
    rw [stepReading_of_beyond outside, stepReading_of_beyond outside']
    exact ⟨rfl, rfl⟩

/-- **A call to a session without its first cues.** -/
theorem step_dropCues (started : s.status ≠ .fresh) (fits : n ≤ s.cues.length) (bytes : Bytes) :
    ((s.dropCues n).step (.ofBytes bytes)).session
        = (s.step (.ofBytes bytes)).session.dropCues n ∧
      ((s.dropCues n).step (.ofBytes bytes)).outcome = (s.step (.ofBytes bytes)).outcome := by
  have same : (s.dropCues n).status = s.status := rfl
  cases phase : s.status with
  | fresh => exact absurd phase started
  | finished =>
      simp only [step, same, phase]
      exact ⟨trivial, trivial⟩
  | reading =>
      simp only [step, same, phase]
      exact stepReading_dropCues fits bytes
  | awaitingSignature =>
      simp only [step, same, phase]
      by_cases right : bytes.take 4 = signature
      · rw [s.stepSignature_of_right right, (s.dropCues n).stepSignature_of_right right]
        exact stepReading_dropCues (s := { s with status := .reading }) fits bytes
      · by_cases short : bytes.length < 4
        · obtain ⟨events, all⟩ := s.stepSignature_of_short short
          obtain ⟨events', all'⟩ := (s.dropCues n).stepSignature_of_short short
          rw [all, all']
          exact ⟨rfl, rfl⟩
        · obtain ⟨events, all⟩ := s.stepSignature_of_wrong (Nat.le_of_not_lt short) right
          obtain ⟨events', all'⟩ :=
            (s.dropCues n).stepSignature_of_wrong (Nat.le_of_not_lt short) right
          rw [all, all']
          exact ⟨rfl, rfl⟩

/-- No cue is lost in a call, other than those that a fresh session may hold. -/
lemma length_cues_step (s : Session) (bytes : Bytes) :
    s.begun.cues.length ≤ (s.step (.ofBytes bytes)).session.cues.length := by
  have called := callsOver_step s bytes
  generalize (s.step (.ofBytes bytes)).outcome = outcome at called
  generalize (s.step (.ofBytes bytes)).session = next at called
  cases called with
  | finished done => rw [begun_of_started (by rw [done]; simp)]
  | unsigned | beyond => exact le_rfl
  | reads live inside reads =>
      rw [cues_settled]
      exact reads.length_cues

/-- A session that has been called is not fresh. -/
lemma started_step (s : Session) (bytes : Bytes) :
    (s.step (.ofBytes bytes)).session.status ≠ .fresh := by
  have called := callsOver_step s bytes
  generalize (s.step (.ofBytes bytes)).outcome = outcome at called
  generalize (s.step (.ofBytes bytes)).session = next at called
  cases called with
  | finished done => simp [done]
  | unsigned waiting => simp [waiting]
  | beyond => simp
  | reads live inside reads =>
      rw [settled]
      split
      · simp
      · simp [reads.status]

end Session

end CueIndex
