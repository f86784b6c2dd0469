import Mathlib
import CueIndex.Proofs.Session.Meetings

/-!
# The growth of the cue list

The numbers of a cue arrive in elements of their own, in any order and as often as the stream
pleases, and each goes to whichever cue is the newest then.  So a list of cues is never settled as
long as it is read into; what is settled is all of it but the newest cue.

* `entered` — how many cue points are among elements.
* **`Grows`** — a list of cues that has become another: cues were added, and of the others none but
  the newest was changed.
* **`Gains`**, `gains_meet`, `Calls.gains` — from one element to the next, and so from one call to
  the next, a session adds as many cues as it enters cue points, and moves over two bytes or more
  for each.
* `stages`, `within`, `moments` — the states of a session after each element of a reading, within a
  call, and from one call to the next; **`chain_moments`** says that its cues grow from each to the
  next.
* **`cues_appendOnly`** — all of it together.
-/

namespace CueIndex

/-- How many cue points are among elements that were met. -/
def entered (visits : List Visit) : ℕ := visits.countP (·.header.kind? = some .cuePoint)

@[simp] lemma entered_nil : entered [] = 0 := rfl

lemma entered_cons (visit : Visit) (visits : List Visit) :
    entered (visit :: visits) = entered [visit] + entered visits := by
  rw [entered, ← List.singleton_append, List.countP_append, entered, entered]

lemma entered_singleton (visit : Visit) :
    entered [visit] = if visit.header.kind? = some .cuePoint then 1 else 0 := by
  simp [entered, List.countP_singleton]

/-! ## Lists that grow -/

/-- **A list of cues and what it has become**: cues were added behind, and of the others none but
the newest was changed. -/
structure Grows (added : ℕ) (earlier later : List CuePoint) : Prop where
  length : later.length = earlier.length + added
  kept : earlier.dropLast <+: later

namespace Grows

variable {m n : ℕ} {earlier between later older : List CuePoint}

lemma refl (cues : List CuePoint) : Grows 0 cues cues := ⟨rfl, List.dropLast_prefix cues⟩

lemma trans (one : Grows m earlier between) (two : Grows n between later) :
    Grows (m + n) earlier later where
  length := by rw [two.length, one.length, Nat.add_assoc]
  kept := by
    have longer := one.length
    -- what is kept of the first list ends before the newest cue of the second
    have inside : earlier.dropLast <+: between.dropLast := by
      refine List.prefix_of_prefix_length_le one.kept between.dropLast_prefix ?_
      rw [List.length_dropLast, List.length_dropLast]
      omega
    exact inside.trans two.kept

/-- **A cue that is not the newest stays as it is.** -/
theorem getElem? (grows : Grows n earlier later) {i : ℕ} (settled : i + 1 < earlier.length) :
    later[i]? = earlier[i]? := by
  obtain ⟨tail, rfl⟩ := grows.kept
  have inside : i < earlier.dropLast.length := by
    rw [List.length_dropLast]
    omega
  rw [List.getElem?_append_left inside, List.getElem?_dropLast, if_pos (by omega)]

/-- What a list with a newest cue becomes. -/
lemma exists_changed {newest : CuePoint} (grows : Grows n (older ++ [newest]) later) :
    ∃ changed added, later = older ++ changed :: added ∧ added.length = n := by
  obtain ⟨tail, rfl⟩ := grows.kept
  have length := grows.length
  rw [List.dropLast_concat, List.length_append, List.length_append, List.length_singleton] at length
  cases tail with
  | nil => simp at length; omega
  | cons changed added =>
      refine ⟨changed, added, by rw [List.dropLast_concat], ?_⟩
      rw [List.length_cons] at length
      omega

end Grows

lemma grows_push (list : CueList) : Grows 1 list.toList list.push.toList where
  length := by rw [CueList.toList_push, List.length_append, List.length_singleton]
  kept := by
    rw [CueList.toList_push]
    exact (List.dropLast_prefix _).trans (List.prefix_append _ _)

lemma grows_updateNewest (list : CueList) (change : CuePoint → CuePoint) :
    Grows 0 list.toList (list.updateNewest change).toList where
  length := by
    rw [CueList.length_toList, CueList.length_toList, CueList.length_updateNewest, Nat.add_zero]
  kept := by
    rcases list.toList.eq_nil_or_concat with none | ⟨older, newest, shape⟩
    · rw [none]
      exact List.nil_prefix
    · rw [List.concat_eq_append] at shape
      rw [CueList.toList_updateNewest shape, shape, List.dropLast_concat]
      exact List.prefix_append _ _

namespace Session

variable {s mid last : Session} {ahead : Bytes} {header : Header} {visits further : List Visit}
  {outcome : Outcome} {later : ByteSource}

/-! ## What a session gains -/

lemma grows_store (s : Session) (kind : Kind) (value : UInt64) :
    Grows 0 s.cues.toList (s.store kind value).cues.toList := by
  unfold store
  split <;> first | exact grows_updateNewest .. | exact .refl _

/-- Only a cue point adds a cue. -/
lemma grows_record (s : Session) (header : Header) (payload : Bytes) :
    Grows (if header.kind? = some .cuePoint then 1 else 0) s.cues.toList
      (s.record header payload).cues.toList := by
  by_cases isCuePoint : header.kind? = some .cuePoint
  · rw [if_pos isCuePoint]
    simp only [record, isCuePoint]
    exact grows_push _
  · rw [if_neg isCuePoint]
    unfold record
    repeat' split
    all_goals first | exact absurd ‹_› isCuePoint | exact grows_store .. | exact .refl _

/-- **What a session gains when it meets elements**: a cue for every cue point, and a place that is
two bytes or more further on for each. -/
structure Gains (s : Session) (visits : List Visit) (last : Session) : Prop where
  cues : Grows (entered visits) s.cues.toList last.cues.toList
  moved : s.resume + 2 * entered visits ≤ last.resume

/-- Cues and place are all that this is about. -/
lemma gains_of_same (cues : last.cues = s.cues) (resume : last.resume = s.resume) :
    s.Gains [] last where
  cues := by rw [cues]; exact .refl _
  moved := by rw [resume, entered_nil, Nat.mul_zero, Nat.add_zero]

lemma Gains.cons {visit : Visit} (one : s.Gains [visit] mid) (two : mid.Gains visits last) :
    s.Gains (visit :: visits) last where
  cues := by
    rw [entered_cons]
    exact one.cues.trans two.cues
  moved := by
    have first := one.moved
    have second := two.moved
    rw [entered_cons]
    omega

/-- **Meeting an element.** -/
theorem gains_meet (s : Session) (move : nextMove ahead = .take header) :
    s.Gains [s.nextVisit header ahead] (s.meet header ahead) where
  cues := by
    rw [entered_singleton, header_nextVisit]
    exact s.grows_record header (header.payload ahead)
  moved := by
    have progress := two_le_advance_of_nextMove move
    rw [entered_singleton, resume_meet]
    split <;> omega

/-- A reading stops at a cluster, which is no cue point. -/
lemma entered_stopVisit (s : Session) (move : nextMove ahead = .stop header) :
    entered [s.stopVisit header] = 0 := by
  rw [entered_singleton, header_stopVisit, kind?_of_stop move, if_neg (by decide)]

/-- **A reading.** -/
theorem Reads.gains (reads : Reads s ahead visits outcome last) : s.Gains visits last := by
  induction reads with
  | wait | malformed => exact gains_of_same rfl rfl
  | @stop s _ _ move =>
      refine ⟨?_, ?_⟩
      · rw [s.entered_stopVisit move]
        exact .refl _
      · rw [s.entered_stopVisit move]
        omega
  | last move reached => exact gains_meet _ move
  | meet move ongoing later ih => exact (gains_meet _ move).cons ih

lemma cues_settled (last : Session) (outcome : Outcome) :
    (last.settled outcome).cues = last.cues := by
  unfold settled
  split <;> rfl

/-- **A call.** -/
theorem Calls.gains (calls : Calls s later visits outcome last) (phased : s.Phased) :
    s.Gains visits last := by
  obtain ⟨status, begins⟩ := phased.begun
  cases calls with
  | finished => exact gains_of_same rfl rfl
  | unsigned | unread => exact gains_of_same (by rw [begins]) (by rw [begins])
  | reads live inside reads =>
      rw [begins] at reads
      have gains := reads.gains
      refine ⟨?_, ?_⟩
      · rw [cues_settled]
        exact gains.cues
      · rw [resume_settled]
        exact gains.moved

/-! ## Every moment of a session -/

/-- The states of a session after each element that it meets in a reading. -/
def stages (s : Session) (ahead : Bytes) : List Session :=
  match _ : nextMove ahead with
  | .take header =>
    let next := s.meet header ahead
    match next.cuesReached? with
    | some _ => [next]
    | none => next :: stages next (ahead.drop header.advance)
  | _ => []
termination_by ahead.length
decreasing_by
  have move : nextMove ahead = .take header := by assumption
  have := two_le_advance_of_nextMove move
  have := advance_le_of_nextMove move
  simp only [List.length_drop]
  omega

section Stages

variable (s)

lemma stages_of_still (still : ∀ header, nextMove ahead ≠ .take header) : s.stages ahead = [] := by
  unfold stages
  split
  · next header move => exact absurd move (still header)
  · rfl

lemma stages_of_last {cuesEnd : ℕ} (move : nextMove ahead = .take header)
    (reached : (s.meet header ahead).cuesReached? = some cuesEnd) :
    s.stages ahead = [s.meet header ahead] := by
  unfold stages
  split <;> simp_all

lemma stages_of_meet (move : nextMove ahead = .take header)
    (ongoing : (s.meet header ahead).cuesReached? = none) :
    s.stages ahead =
      s.meet header ahead :: (s.meet header ahead).stages (ahead.drop header.advance) := by
  conv => lhs; unfold stages
  split <;> simp_all

end Stages

/-- **Within a reading**, a session has gained what the elements so far account for. -/
theorem Reads.gains_stage (reads : Reads s ahead visits outcome last) {k : ℕ}
    (stage : (s.stages ahead)[k]? = some mid) : s.Gains (visits.take (k + 1)) mid := by
  induction reads generalizing k with
  | wait move | malformed move | stop move =>
      rw [stages_of_still _ (by simp [move])] at stage
      cases stage
  | last move reached =>
      rw [stages_of_last _ move reached, List.getElem?_singleton] at stage
      split at stage
      · cases stage
        rw [List.take_of_length_le (by simp)]
        exact gains_meet _ move
      · cases stage
  | meet move ongoing later ih =>
      rw [stages_of_meet _ move ongoing] at stage
      rw [List.take_succ_cons]
      cases k with
      | zero =>
          cases stage
          exact gains_meet _ move
      | succ k => exact (gains_meet _ move).cons (ih stage)

/-- Cues are added to a session, and none but the newest of those that it has is changed. -/
def Onward (s last : Session) : Prop := ∃ added, Grows added s.cues.toList last.cues.toList

lemma Gains.onward (gains : s.Gains visits last) : s.Onward last := ⟨_, gains.cues⟩

lemma onward_of_same (cues : last.cues = s.cues) : s.Onward last :=
  ⟨0, by rw [cues]; exact .refl _⟩

/-- Any session with the cues of one that meets an element goes onward to what it becomes. -/
lemma onward_meet {start : Session} (starts : start.cues = s.cues)
    (move : nextMove ahead = .take header) : start.Onward (s.meet header ahead) := by
  rw [Onward, starts]
  exact (gains_meet s move).onward

instance : Trans Onward Onward Onward where
  trans one two := by
    obtain ⟨_, first⟩ := one
    obtain ⟨_, second⟩ := two
    exact ⟨_, first.trans second⟩

/-- Between any session with the cues that a reading starts from and any with those that it leaves,
the reading goes onward from stage to stage. -/
lemma Reads.chain (reads : Reads s ahead visits outcome last) {start finish : Session}
    (starts : start.cues = s.cues) (ends : finish.cues = last.cues) :
    (start :: (s.stages ahead ++ [finish])).IsChain Onward := by
  induction reads generalizing start with
  | wait move | malformed move | stop move =>
      rw [stages_of_still _ (by simp [move])]
      exact .cons_cons (onward_of_same (ends.trans starts.symm)) (.singleton _)
  | last move reached =>
      rw [stages_of_last _ move reached]
      exact .cons_cons (onward_meet starts move)
        (.cons_cons (onward_of_same ends) (.singleton _))
  | meet move ongoing later ih =>
      rw [stages_of_meet _ move ongoing]
      exact .cons_cons (onward_meet starts move) (ih rfl ends)

/-- The states that a session goes through within a call. -/
def within (s : Session) : Call → List Session
  | .step first later =>
    if s.status = .finished ∨ (s.stepOver first later).outcome.isRefusal then []
    else stages { s.begun with status := .reading }
      ((later.view later.available).drop s.begun.resume)
  | _ => []

/-- **Every state that a session goes through in calls**, those within the calls included. -/
def moments (s : Session) : List Call → List Session
  | [] => [s]
  | call :: calls => s :: (s.within call ++ (s.call call).1.moments calls)

/-- Within a step nothing happens, or a reading does. -/
lemma within_step (s : Session) (first later : ByteSource) :
    s.within (.step first later) = [] ∨
      ∃ ahead last,
        s.within (.step first later) = stages { s.begun with status := .reading } ahead ∧
        Reads { s.begun with status := .reading } ahead (s.stepOver first later).visits
          (s.stepOver first later).outcome last ∧
        (s.stepOver first later).session = last.settled (s.stepOver first later).outcome := by
  by_cases idle : s.status = .finished ∨ (s.stepOver first later).outcome.isRefusal
  · rw [within, if_pos idle]
    exact Or.inl rfl
  · obtain ⟨live, accepted⟩ := not_or.1 idle
    obtain ⟨last, reads, settles⟩ := (calls_stepOver s first later).reads_of_accepted live
      (Bool.eq_false_iff.2 accepted)
    rw [within, if_neg idle]
    exact Or.inr ⟨_, last, rfl, reads, settles⟩

/-- **Within a call.** -/
theorem gains_within (phased : s.Phased) (first later : ByteSource) {k : ℕ}
    (stage : (s.within (.step first later))[k]? = some mid) :
    s.Gains ((s.stepOver first later).visits.take (k + 1)) mid := by
  rcases s.within_step first later with nothing | ⟨ahead, last, all, reads, -⟩
  · rw [nothing] at stage
    cases stage
  · obtain ⟨status, begins⟩ := phased.begun
    rw [all] at stage
    have gains := reads.gains_stage stage
    rw [begins] at gains
    exact ⟨gains.cues, gains.moved⟩

/-- **A call goes onward from moment to moment**, unless it takes the index. -/
theorem chain_call (phased : s.Phased) {call : Call} (keeps : call ≠ .takeIndex) :
    (s :: (s.within call ++ [(s.call call).1])).IsChain Onward := by
  cases call with
  | takeIndex => exact absurd rfl keeps
  | noteFlush n => exact .cons_cons (onward_of_same rfl) (.singleton _)
  | step first later =>
      rcases s.within_step first later with nothing | ⟨ahead, last, all, reads, settles⟩
      · rw [nothing]
        exact .cons_cons ((calls_stepOver s first later).gains phased).onward (.singleton _)
      · obtain ⟨status, begins⟩ := phased.begun
        rw [all]
        refine reads.chain (by rw [begins]) ?_
        rw [Session.call, settles, cues_settled]

/-- The moments of calls start with the session. -/
lemma moments_eq_cons (s : Session) (calls : List Call) :
    ∃ later, s.moments calls = s :: later := by
  cases calls <;> exact ⟨_, rfl⟩

/-- They end with what the calls leave. -/
lemma getLast?_moments (s : Session) (calls : List Call) :
    (s.moments calls).getLast? = some (s.after calls) := by
  induction calls generalizing s with
  | nil => rfl
  | cons call calls ih =>
      rw [moments, List.getLast?_cons, List.getLast?_append, ih]
      rfl

/-- **Calls go onward from moment to moment.** -/
theorem chain_moments (phased : s.Phased) {calls : List Call}
    (keep : ∀ call ∈ calls, call ≠ .takeIndex) : (s.moments calls).IsChain Onward := by
  induction calls generalizing s with
  | nil => exact .singleton s
  | cons call calls ih =>
      have behind := ih (phased.call call) fun call among => keep call (by simp [among])
      obtain ⟨further, starts⟩ := (s.call call).1.moments_eq_cons calls
      rw [starts, ← List.singleton_append] at behind
      have here : ((s :: s.within call) ++ [(s.call call).1]).IsChain Onward :=
        chain_call phased (keep call (by simp))
      have all := here.append_overlap behind (by simp)
      rwa [List.append_assoc, List.singleton_append, ← starts] at all

/-- How far a call moves the place of a session forward while it reads. -/
def movedIn (s : Session) : Call → ℕ
  | .step first later => (s.stepOver first later).session.resume - s.resume
  | _ => 0

/-- How many bytes a session moves over in calls. -/
def moved (s : Session) : List Call → ℕ
  | [] => 0
  | call :: calls => s.movedIn call + (s.call call).1.moved calls

/-- **A session that starts without cues has moved over two bytes for each that it has.** -/
theorem two_mul_length_after (phased : s.Phased) (calls : List Call) :
    2 * (s.after calls).cues.length ≤ 2 * s.cues.length + s.moved calls := by
  induction calls generalizing s with
  | nil => exact Nat.le_add_right _ _
  | cons call calls ih =>
      have onward := ih (phased.call call)
      have here : 2 * (s.call call).1.cues.length ≤ 2 * s.cues.length + s.movedIn call := by
        cases call with
        | noteFlush n => exact Nat.le_add_right _ _
        | takeIndex => exact Nat.zero_le _
        | step first later =>
            have gains := (calls_stepOver s first later).gains phased
            have length := gains.cues.length
            have moved := gains.moved
            simp only [Session.call, movedIn, CueList.length_toList] at length ⊢
            omega
      rw [moved]
      change 2 * ((s.call call).1.after calls).cues.length ≤ _
      omega

/-! ## All of it together -/

/-- **The list of cues only grows, and only its newest cue is still written to.**  In every state
that a session can be in, whatever the sources of a step answer: without a cue there is none until a
cue point is met; the list that the step leaves is the one before, in which the newest cue at most
has changed, with one new cue behind it for every cue point that was met; and the step moves over
two bytes or more for each.  Until the index is taken, a cue that has another behind it is the same
at every later moment, be it between calls or in the middle of one.  A session never has more than
one cue for two bytes that it has moved over since it was started. -/
theorem cues_appendOnly :
    (∀ (s : Session) (first later : ByteSource), s.Reachable →
      let stepped := s.stepOver first later
      (s.cues.toList = [] → stepped.session.cues.length = entered stepped.visits ∧
        ∀ k mid, (s.within (.step first later))[k]? = some mid →
          entered (stepped.visits.take (k + 1)) = 0 → mid.cues.toList = []) ∧
      (∀ older newest, s.cues.toList = older ++ [newest] →
        ∃ changed added, stepped.session.cues.toList = older ++ changed :: added ∧
          added.length = entered stepped.visits) ∧
      s.resume + 2 * entered stepped.visits ≤ stepped.session.resume) ∧
    (∀ (s : Session) (calls : List Call), s.Reachable → (∀ call ∈ calls, call ≠ .takeIndex) →
      (s.moments calls).getLast? = some (s.after calls) ∧
      (s.moments calls).Pairwise fun earlier later =>
        ∀ i, i + 1 < earlier.cues.length → later.cues.toList[i]? = earlier.cues.toList[i]?) ∧
    ∀ calls : List Call, 2 * (({} : Session).after calls).cues.length ≤ moved {} calls := by
  refine ⟨fun s first later reachable => ?_, fun s calls reachable keep => ?_, fun calls => ?_⟩
  · intro stepped
    have gains := (calls_stepOver s first later).gains reachable.phased
    refine ⟨fun none => ⟨?_, fun k mid stage nothing => ?_⟩, fun older newest shape => ?_,
      gains.moved⟩
    · have length := gains.cues.length
      rwa [none, List.length_nil, Nat.zero_add] at length
    · have length := (gains_within reachable.phased first later stage).cues.length
      rw [none, nothing] at length
      exact List.eq_nil_of_length_eq_zero length
    · have grows := gains.cues
      rw [shape] at grows
      exact grows.exists_changed
  · refine ⟨s.getLast?_moments calls, ?_⟩
    refine (chain_moments reachable.phased keep).pairwise.imp fun onward i settled => ?_
    obtain ⟨added, grows⟩ := onward
    exact grows.getElem? settled
  · have bound := two_mul_length_after phased_new calls
    rwa [show 2 * ({} : Session).cues.length = 0 from rfl, Nat.zero_add] at bound

/-- A stream up to its first cue, of which the time is known. -/
def firstCue : Bytes :=
  [0x1A, 0x45, 0xDF, 0xA3, 0x80, 0x18, 0x53, 0x80, 0x67, 0xFF, 0x1C, 0x53, 0xBB, 0x6B, 0xFF,
    0xBB, 0x83, 0xB3, 0x81, 0x07]

/-- What follows it: a time that belongs to no cue point of its own, then a second cue. -/
def secondCue : Bytes := [0xB3, 0x81, 0x09, 0xBB, 0x80, 0xB3, 0x81, 0x05]

/-- The stray time replaces that of the first cue, which the second cue then puts out of reach. -/
theorem cues_appendOnly_stray_time :
    let front := ByteSource.ofBytes firstCue
    let whole := ByteSource.ofBytes (firstCue ++ secondCue)
    let begun := (Session.stepOver {} front front).session
    let stepped := begun.stepOver whole whole
    (begun.cues.toList = [⟨7, 0, 0⟩] ∧ entered stepped.visits = 1 ∧
      ∃ changed added, stepped.session.cues.toList = [] ++ changed :: added ∧ added.length = 1) ∧
    ((begun.moments [.step whole whole]).map (·.cues.toList)
        = [[⟨7, 0, 0⟩], [⟨9, 0, 0⟩], [⟨9, 0, 0⟩, .blank], [⟨9, 0, 0⟩, ⟨5, 0, 0⟩],
          [⟨9, 0, 0⟩, ⟨5, 0, 0⟩]] ∧
      (begun.moments [.step whole whole]).Pairwise fun earlier later =>
        ∀ i, i + 1 < earlier.cues.length → later.cues.toList[i]? = earlier.cues.toList[i]?) ∧
    2 * 2 ≤ moved {} [.step front front, .step whole whole] := by
  obtain ⟨grows, settled, bounded⟩ := cues_appendOnly
  intro front whole begun stepped
  have reachable : begun.Reachable := .call (.step front front) .new
  have first : begun.cues.toList = [⟨7, 0, 0⟩] := by decide +kernel
  have one : entered stepped.visits = 1 := by decide +kernel
  have two : (({} : Session).after [.step front front, .step whole whole]).cues.length = 2 := by
    decide +kernel
  refine ⟨⟨first, one, ?_⟩, ⟨by decide +kernel, ?_⟩, ?_⟩
  · have law := (grows begun whole whole reachable).2.1 [] ⟨7, 0, 0⟩ first
    rwa [one] at law
  · exact (settled begun [.step whole whole] reachable (by simp)).2
  · have law := bounded [.step front front, .step whole whole]
    rwa [two] at law

end Session

end CueIndex
