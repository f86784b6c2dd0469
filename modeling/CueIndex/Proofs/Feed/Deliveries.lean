import Mathlib
import CueIndex.Proofs.Feed.Following

/-!
# Streams that are delivered in pieces

However a stream is cut into chunks, and whatever is let go of the bytes already taken in, reading
after each chunk ends where reading the whole stream at once ends.  The place of the session is
compared as a place in the stream: the bytes let go, and the place among those still there.

* `run_cons_of_complete`, `run_cons_of_pending` — the two ways in which a run goes on.
* `Follows.run` — a run from any feed that follows what has arrived so far.
* **`run_eq_readWhole`** — the run from the start.
-/

namespace CueIndex.Feed

variable {feed : Feed} {stream : Bytes}

/-! ## One delivery -/

lemma run_cons_of_complete {delivery : Delivery} (later : List Delivery)
    (done : (feed.push delivery.chunk).step.2.outcome = .complete) :
    feed.run (delivery :: later)
      = ((feed.push delivery.chunk).step.1, [(feed.push delivery.chunk).step.2]) := by
  rw [run]
  split
  next fed stepped called =>
    rw [called] at done ⊢
    dsimp only at done ⊢
    rw [done]

lemma run_cons_of_pending {delivery : Delivery} (later : List Delivery)
    (pending : (feed.push delivery.chunk).step.2.outcome ≠ .complete) :
    feed.run (delivery :: later) =
      let result := ((feed.push delivery.chunk).step.1.letGo delivery.slack).run later
      (result.1, (feed.push delivery.chunk).step.2 :: result.2) := by
  rw [run]
  split
  next fed stepped called =>
    rw [called] at pending ⊢
    dsimp only at pending ⊢
    split
    · next done => exact absurd done pending
    · rfl

/-! ## A whole run -/

/-- What a run has to show at its end, once the bytes of `stream` have been offered to it: the place
and the state of a session that read them at once, and the outcome of that reading with the last
call, which is the only one that may complete the index. -/
structure Arrives (result : Feed × List Step) (stream : Bytes) : Prop where
  located : result.1.located = (readWhole stream).session
  resume_le : result.1.session.resume ≤ result.1.buffer.available
  outcome : result.2.getLast?.map Step.outcome = some (readWhole stream).outcome
  complete : (∃ step ∈ result.2, step.outcome = .complete) ↔
    (readWhole stream).outcome = .complete

/-- The delivery that completes the index ends the run, and the bytes never read do not matter. -/
lemma Follows.run_of_complete (follows : feed.Follows stream) {delivery : Delivery}
    (later : List Delivery) (done : (feed.push delivery.chunk).step.2.outcome = .complete)
    (unread : Bytes) :
    Arrives (feed.run (delivery :: later)) (stream ++ delivery.chunk ++ unread) := by
  have pushed := follows.push delivery.chunk
  obtain ⟨located, outcome⟩ := pushed.step_eq
  have same : (readWhole (stream ++ delivery.chunk ++ unread)).Agrees
      (readWhole (stream ++ delivery.chunk)) :=
    Session.step_append_of_complete (outcome.symm.trans done) unread
  rw [run_cons_of_complete later done]
  refine ⟨located.trans same.session.symm, Session.resume_step_le pushed.resume_le, ?_, ?_⟩
  · exact congrArg some (outcome.trans same.outcome.symm)
  · refine iff_of_true ⟨_, List.mem_singleton_self _, done⟩ ?_
    exact same.outcome.trans (outcome.symm.trans done)

/-- **A run from a feed that follows what has arrived so far.**  Induction on the deliveries still
to come: the first of them completes the index, or leaves a feed that follows the stream to it. -/
theorem Follows.run (follows : feed.Follows stream) (delivery : Delivery) (later : List Delivery) :
    Arrives (feed.run (delivery :: later))
      (stream ++ ((delivery :: later).map Delivery.chunk).flatten) := by
  induction later generalizing feed stream delivery with
  | nil =>
      rw [List.map_singleton, List.flatten_singleton]
      by_cases done : (feed.push delivery.chunk).step.2.outcome = .complete
      · simpa only [List.append_nil] using follows.run_of_complete [] done []
      · have pushed := follows.push delivery.chunk
        obtain ⟨located, outcome⟩ := pushed.step_eq
        have stepped := pushed.step done
        have kept := stepped.letGo delivery.slack
        rw [run_cons_of_pending [] done]
        refine ⟨?_, kept.resume_le, congrArg some outcome, ?_⟩
        · exact (located_letGo stepped.resume_le delivery.slack).trans located
        · simp [Feed.run, done, ← outcome]
  | cons next later ih =>
      rw [List.map_cons, List.flatten_cons, ← List.append_assoc]
      by_cases done : (feed.push delivery.chunk).step.2.outcome = .complete
      · exact follows.run_of_complete (next :: later) done _
      · have kept := ((follows.push delivery.chunk).step done).letGo delivery.slack
        have arrives := ih kept next
        rw [run_cons_of_pending _ done]
        refine ⟨arrives.located, arrives.resume_le, ?_, ?_⟩
        · have last := arrives.outcome
          cases steps : (Feed.run _ (next :: later)).2 with
          | nil => rw [steps] at last; cases last
          | cons step steps' =>
              rw [steps] at last
              simpa [steps] using last
        · rw [← arrives.complete]
          simp [done]

/-- **However a stream is delivered, reading it in pieces ends where reading it at once ends.**  For
every list of chunks, empty ones included, and every choice of how many bytes are let go after each
call, also after the last: the state is that of a fresh session called once over the whole stream,
with the place counted from the start of the stream; some call completes the index exactly if the
single call does, and the last call has the outcome of the single call. -/
theorem run_eq_readWhole (first : Delivery) (later : List Delivery) (slack : ℕ) :
    let stream := ((first :: later).map Delivery.chunk).flatten
    let result := ({} : Feed).run (first :: later)
    let last := result.1.letGo slack
    { last.session with resume := last.buffer.flushed + last.session.resume }
        = (readWhole stream).session ∧
      ((∃ step ∈ result.2, step.outcome = .complete) ↔
        (readWhole stream).outcome = .complete) ∧
      result.2.getLast?.map Step.outcome = some (readWhole stream).outcome := by
  have arrives := follows_start.run first later
  rw [List.nil_append] at arrives
  refine ⟨?_, arrives.complete, arrives.outcome⟩
  rw [Nat.add_comm]
  exact (located_letGo arrives.resume_le slack).trans arrives.located

end CueIndex.Feed
