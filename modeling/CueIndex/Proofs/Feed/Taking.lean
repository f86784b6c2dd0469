import Mathlib
import CueIndex.Proofs.Feed.Deliveries
import CueIndex.Proofs.Session.Taking

/-!
# Feeds whose index is taken in pieces

Between two deliveries the index so far may be taken out of a feed, which leaves its session without
the cues that it has found.  The feed goes on, and the pieces, one behind the other, are to be what
a feed finds that keeps its cues.

* `Feed.takeIndex`, `Errand`, **`Feed.gather`** — a run in which the index so far is taken after
  some of the deliveries, and after the one that completes it.
* `Feed.Parted` — a feed that may have parted with its first cues.
* **`gather_dropCues`** — cues apart, such a run goes through the same states as one in which
  nothing is taken, whatever the stream.
* `Steady`, **`gather_of_steady`** — over a stream that never changes a cue that has been found, the
  pieces are the whole; over another one they may not be (`exists_taken_early`).
-/

namespace CueIndex

/-- A delivery, and whether the index so far is taken once it has been read. -/
structure Errand extends Delivery where
  takes : Bool
  deriving DecidableEq, Repr, Inhabited

/-- What a run leads to in which the index is taken in pieces. -/
structure Gathering where
  feed : Feed
  steps : List Step
  /-- The pieces, in the order in which they were taken. -/
  taken : List SeekIndex

/-- What a call leads to, cues apart. -/
def Step.apart (step : Step) : Session × Outcome := (step.session.takeIndex.2, step.outcome)

namespace Feed

/-- The index so far, and the feed without its cues. -/
def takeIndex (feed : Feed) : SeekIndex × Feed :=
  (feed.session.takeIndex.1, { feed with session := feed.session.takeIndex.2 })

/-- The index so far is taken out of the feed, or nothing is. -/
def takeIf (feed : Feed) : Bool → List SeekIndex × Feed
  | true => ([feed.takeIndex.1], feed.takeIndex.2)
  | false => ([], feed)

/-- Deliver chunks one after the other, reading after each, until the index is complete.  The index
so far is taken after those deliveries that ask for it, and after the one that completes it. -/
def gather (feed : Feed) : List Errand → Gathering
  | [] => ⟨feed, [], []⟩
  | errand :: later =>
    let (fed, stepped) := (feed.push errand.chunk).step
    match stepped.outcome with
    | .complete => ⟨fed.takeIndex.2, [stepped], [fed.takeIndex.1]⟩
    | _ =>
      let (here, left) := fed.takeIf errand.takes
      let onward := (left.letGo errand.slack).gather later
      ⟨onward.feed, stepped :: onward.steps, here ++ onward.taken⟩

variable {feed : Feed} {stream whole : Bytes} {n : ℕ}

/-! ## One errand -/

lemma gather_cons_of_complete {errand : Errand} (later : List Errand)
    (done : (feed.push errand.chunk).step.2.outcome = .complete) :
    feed.gather (errand :: later) = ⟨(feed.push errand.chunk).step.1.takeIndex.2,
      [(feed.push errand.chunk).step.2], [(feed.push errand.chunk).step.1.takeIndex.1]⟩ := by
  rw [gather]
  split
  next fed stepped called =>
    rw [called] at done ⊢
    dsimp only at done ⊢
    rw [done]

lemma gather_cons_of_pending {errand : Errand} (later : List Errand)
    (pending : (feed.push errand.chunk).step.2.outcome ≠ .complete) :
    feed.gather (errand :: later) =
      let taking := (feed.push errand.chunk).step.1.takeIf errand.takes
      let onward := (taking.2.letGo errand.slack).gather later
      ⟨onward.feed, (feed.push errand.chunk).step.2 :: onward.steps, taking.1 ++ onward.taken⟩ := by
  rw [gather]
  split
  next fed stepped called =>
    rw [called] at pending ⊢
    dsimp only at pending ⊢
    split
    · next done => exact absurd done pending
    · rfl

/-! ## Feeds that have parted with cues -/

/-- The feed whose session lacks its first `n` cues. -/
def dropCues (feed : Feed) (n : ℕ) : Feed := { feed with session := feed.session.dropCues n }

/-- **A feed that may have parted with its first `n` cues.**  The feed itself is the one that has
kept them. -/
structure Parted (feed : Feed) (n : ℕ) : Prop where
  fits : n ≤ feed.session.cues.length
  /-- A session that has not been called yet has found nothing. -/
  started : feed.session.status = .fresh → n = 0

lemma parted_start : ({} : Feed).Parted 0 where
  fits := Nat.le_refl _
  started _ := rfl

lemma dropCues_zero (feed : Feed) : feed.dropCues 0 = feed := by
  rw [dropCues, Session.dropCues_zero]

lemma Parted.push (parted : feed.Parted n) (chunk : Bytes) : (feed.push chunk).Parted n where
  fits := parted.fits
  started := parted.started

lemma Parted.letGo (parted : feed.Parted n) (slack : ℕ) : (feed.letGo slack).Parted n where
  fits := parted.fits
  started := parted.started

lemma Parted.step (parted : feed.Parted n) : feed.step.1.Parted n where
  fits := by
    by_cases fresh : feed.session.status = .fresh
    · rw [parted.started fresh]
      exact Nat.zero_le _
    · have kept := feed.session.length_cues_step feed.buffer.bytes
      rw [Session.begun_of_started fresh] at kept
      exact parted.fits.trans kept
  started fresh := absurd fresh (feed.session.started_step feed.buffer.bytes)

/-- **A call to a feed that has parted with cues.** -/
theorem Parted.step_dropCues (parted : feed.Parted n) :
    (feed.dropCues n).step.1 = feed.step.1.dropCues n ∧
      (feed.dropCues n).step.2.outcome = feed.step.2.outcome := by
  by_cases fresh : feed.session.status = .fresh
  · rw [parted.started fresh, dropCues_zero, dropCues_zero]
    exact ⟨rfl, rfl⟩
  · obtain ⟨session, outcome⟩ :=
      Session.step_dropCues fresh parted.fits feed.buffer.bytes
    exact ⟨congrArg (Feed.mk · feed.buffer) session, outcome⟩

/-- A call leads to the same, cues apart. -/
lemma Parted.apart_dropCues (parted : feed.Parted n) :
    (feed.dropCues n).step.2.apart = feed.step.2.apart := by
  obtain ⟨fed, outcome⟩ := parted.step_dropCues
  exact Prod.ext (congrArg (fun fed => fed.takeIndex.2.session) fed) outcome

/-- Whether or not the index so far is taken, what is left is a feed that has parted with cues, and
what is taken are those that it has parted with now. -/
lemma Parted.takeIf (parted : feed.Parted n) (started : feed.session.status ≠ .fresh)
    (takes : Bool) :
    ∃ m, feed.Parted m ∧ ((feed.dropCues n).takeIf takes).2 = feed.dropCues m ∧
      feed.session.cues.toList.take n ++ ((feed.dropCues n).takeIf takes).1.flatMap SeekIndex.cues
        = feed.session.cues.toList.take m := by
  cases takes with
  | false => exact ⟨n, parted, rfl, by simp [Feed.takeIf]⟩
  | true =>
      refine ⟨feed.session.cues.length, ⟨le_rfl, fun fresh => absurd fresh started⟩, ?_, ?_⟩
      · exact congrArg (Feed.mk · feed.buffer) feed.session.takeIndex_snd
      · rw [Feed.takeIf, List.flatMap_singleton, ← CueList.length_toList, List.take_length]
        exact List.take_append_drop n _

/-- The errand after which the index is complete: the feed gives away the cues that it has left. -/
lemma Parted.gather_of_complete (parted : feed.Parted n) {errand : Errand} (later : List Errand)
    (done : (feed.push errand.chunk).step.2.outcome = .complete) :
    ∃ stepped : Step, stepped.apart = (feed.push errand.chunk).step.2.apart ∧
      (feed.dropCues n).gather (errand :: later) =
        let fed := (feed.push errand.chunk).step.1.dropCues n
        ⟨fed.takeIndex.2, [stepped], [fed.takeIndex.1]⟩ := by
  have pushed := parted.push errand.chunk
  obtain ⟨fed, outcome⟩ := pushed.step_dropCues
  have done' : ((feed.dropCues n).push errand.chunk).step.2.outcome = .complete :=
    outcome.trans done
  refine ⟨_, pushed.apart_dropCues, ?_⟩
  rw [gather_cons_of_complete later done', ← fed]
  rfl

/-- Any other errand: what the feed has given away behind it are the first `m` of its cues. -/
lemma Parted.gather_of_pending (parted : feed.Parted n) {errand : Errand} (later : List Errand)
    (pending : (feed.push errand.chunk).step.2.outcome ≠ .complete) :
    ∃ (m : ℕ) (here : List SeekIndex) (stepped : Step),
      let fed := (feed.push errand.chunk).step.1
      let onward := ((fed.letGo errand.slack).dropCues m).gather later
      fed.Parted m ∧ stepped.apart = (feed.push errand.chunk).step.2.apart ∧
        fed.session.cues.toList.take n ++ here.flatMap SeekIndex.cues
          = fed.session.cues.toList.take m ∧
        (feed.dropCues n).gather (errand :: later)
          = ⟨onward.feed, stepped :: onward.steps, here ++ onward.taken⟩ := by
  have pushed := parted.push errand.chunk
  obtain ⟨fed, outcome⟩ := pushed.step_dropCues
  have pending' : ((feed.dropCues n).push errand.chunk).step.2.outcome ≠ .complete :=
    fun done => pending (outcome.symm.trans done)
  obtain ⟨m, kept, left, given⟩ := pushed.step.takeIf (Session.started_step _ _) errand.takes
  refine ⟨m, _, _, kept, pushed.apart_dropCues, given, ?_⟩
  have onward : (((feed.push errand.chunk).step.1.dropCues n).takeIf errand.takes).2.letGo
      errand.slack = ((feed.push errand.chunk).step.1.letGo errand.slack).dropCues m :=
    congrArg (Feed.letGo · errand.slack) left
  rw [gather_cons_of_pending later pending', ← onward, ← fed]
  rfl

/-! ## Cues apart -/

/-- **Taking the index changes nothing but the cues that are left.**  A feed that has parted with
cues goes through the states of the one that has kept them, cues apart, with the same outcomes, and
so it does if the index is taken on the way.  Induction on the errands. -/
theorem gather_dropCues (parted : feed.Parted n) (errands : List Errand) :
    ((feed.dropCues n).gather errands).steps.map Step.apart
        = (feed.run (errands.map Errand.toDelivery)).2.map Step.apart ∧
      ((feed.dropCues n).gather errands).feed.takeIndex.2
        = (feed.run (errands.map Errand.toDelivery)).1.takeIndex.2 := by
  induction errands generalizing feed n with
  | nil => exact ⟨rfl, rfl⟩
  | cons errand later ih =>
      rw [List.map_cons]
      by_cases done : (feed.push errand.chunk).step.2.outcome = .complete
      · obtain ⟨stepped, same, all⟩ := parted.gather_of_complete later done
        rw [all, run_cons_of_complete _ done]
        exact ⟨congrArg (fun apart => [apart]) same, rfl⟩
      · obtain ⟨m, here, stepped, kept, same, -, all⟩ := parted.gather_of_pending later done
        obtain ⟨steps, last⟩ := ih (kept.letGo errand.slack)
        rw [all, run_cons_of_pending _ done]
        dsimp only
        rw [List.map_cons, List.map_cons, steps, same]
        exact ⟨rfl, last⟩

/-! ## The pieces -/

/-- All bytes that errands bring. -/
def brought (errands : List Errand) : Bytes := errands.flatMap fun errand => errand.chunk

/-- A stream that never changes a cue that has been found, wherever it is cut. -/
def Steady (whole : Bytes) : Prop :=
  ∀ start, start <+: whole →
    (readWhole start).session.cues.toList <+: (readWhole whole).session.cues.toList

lemma Follows.cues_step (follows : feed.Follows stream) :
    feed.step.1.session.cues = (readWhole stream).session.cues ∧
      feed.step.1.session.info = (readWhole stream).session.info := by
  rw [← follows.step_eq.1]
  exact ⟨rfl, rfl⟩

/-- The first cues of all are those that have been found. -/
lemma take_of_found {found all : List CuePoint} (start : found <+: all)
    (fits : n ≤ found.length) : all.take n = found.take n := by
  obtain ⟨more, rfl⟩ := start
  exact List.take_append_of_le_length fits

/-- **The pieces are the whole.**  Over a steady stream that completes the index, a feed that has
parted with its first cues gives away the others one after the other, and the last piece has the
facts about the stream.  Induction on the errands: what has been found at the end of a delivery is
there to stay, so what is given away continues what was given away before. -/
theorem gather_of_steady (steady : Steady whole) (completes : (readWhole whole).outcome = .complete)
    (follows : feed.Follows stream) (parted : feed.Parted n)
    (pending : (readWhole stream).outcome ≠ .complete) (errands : List Errand)
    (all : stream ++ brought errands = whole) :
    (readWhole whole).session.cues.toList.take n
          ++ ((feed.dropCues n).gather errands).taken.flatMap SeekIndex.cues
        = (readWhole whole).session.cues.toList ∧
      ((feed.dropCues n).gather errands).taken.getLast?.map SeekIndex.toStreamInfo
        = some (readWhole whole).session.info ∧
      ((feed.dropCues n).gather errands).steps.getLast?.map Step.outcome = some .complete := by
  induction errands generalizing feed stream n with
  | nil =>
      rw [brought, List.flatMap_nil, List.append_nil] at all
      exact absurd (all ▸ completes) pending
  | cons errand later ih =>
      have arrived := follows.push errand.chunk
      obtain ⟨cues, info⟩ := arrived.cues_step
      rw [brought, List.flatMap_cons, ← List.append_assoc, ← brought] at all
      have found := steady _ ⟨_, all⟩
      rw [← cues] at found
      have first := take_of_found found (parted.push errand.chunk).step.fits
      by_cases done : (feed.push errand.chunk).step.2.outcome = .complete
      · obtain ⟨stepped, same, gathered⟩ := parted.gather_of_complete later done
        have stays : (readWhole whole).session = (readWhole (stream ++ errand.chunk)).session := by
          rw [← all]
          exact (Session.step_append_of_complete (arrived.step_eq.2.symm.trans done) _).session
        rw [gathered, stays, ← cues, ← info]
        refine ⟨?_, rfl, congrArg some ((congrArg Prod.snd same).trans done)⟩
        rw [List.flatMap_singleton]
        exact List.take_append_drop n _
      · obtain ⟨m, here, stepped, kept, -, given, gathered⟩ := parted.gather_of_pending later done
        obtain ⟨pieces, last, ends⟩ := ih ((arrived.step done).letGo errand.slack)
          (kept.letGo errand.slack) (by rwa [← arrived.step_eq.2]) all
        obtain ⟨piece, lastPiece, facts⟩ := Option.map_eq_some_iff.1 last
        obtain ⟨step, lastStep, complete⟩ := Option.map_eq_some_iff.1 ends
        rw [gathered]
        refine ⟨?_, ?_, ?_⟩
        · rw [List.flatMap_append, ← List.append_assoc, first, given,
            ← take_of_found found kept.fits, pieces]
        · rw [List.getLast?_append, lastPiece, Option.some_or, Option.map_some, facts]
        · rw [List.getLast?_cons, lastStep, Option.getD_some, Option.map_some, complete]

/-- An empty cue point, the time of its cue behind it, and a cluster.  The index so far is taken in
between. -/
def strayTime : List Errand :=
  [⟨⟨[0x1A, 0x45, 0xDF, 0xA3, 0x80, 0x18, 0x53, 0x80, 0x67, 0xFF, 0x1C, 0x53, 0xBB, 0x6B, 0xFF,
      0xBB, 0x80], 0⟩, true⟩,
    ⟨⟨[0xB3, 0x81, 0x07, 0x1F, 0x43, 0xB6, 0x75, 0x80], 0⟩, false⟩]

/-- **Not every stream is steady, and over another one a cue may be taken too early.**  A reading at
once gives the cue its time, which finds no cue any more where this one has been taken. -/
theorem exists_taken_early :
    ∃ errands, (readWhole (brought errands)).outcome = .complete ∧
      (({} : Feed).gather errands).taken.flatMap SeekIndex.cues = [⟨0, 0, 0⟩] ∧
      (readWhole (brought errands)).session.takeIndex.1.cues = [⟨7, 0, 0⟩] :=
  ⟨strayTime, by decide +kernel⟩

end Feed

end CueIndex
