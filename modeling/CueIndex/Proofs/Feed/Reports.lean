import Mathlib
import CueIndex.Proofs.Feed.Deliveries
import CueIndex.Proofs.Session.Reports

/-!
# Reports of streams that are delivered in pieces

Two runs may end in the same state although one of them has met an element twice, if the element
only sets a number, or has warned of it twice.  What a feed has reported so far is therefore carried
along here with the stream: together with what it will report over any continuation it makes up what
a fresh session reports of the whole.

* **`Feed.Reported`** — this, as an invariant; `reported_start`, `Reported.push`, `Reported.letGo`
  and `Reported.step` keep it.
* `Reported.settled` — right after a call nothing is missing.
* **`run_reports_readWhole`** — a whole run, element by element and warning by warning.
-/

namespace CueIndex.Feed

/-- **A feed that has received the bytes of `stream`** and has made `reports` on the way.  Of these
only the lasting ones count, and only for a stream with the signature, since another one is rejected
anew with every call. -/
structure Reported (feed : Feed) (stream : Bytes) (reports : List Event) : Prop where
  follows : feed.Follows stream
  onward : ∀ more, (stream ++ more).take 4 = Session.signature →
    lasting reports ++ lasting (feed.located.step (.ofBytes (stream ++ more))).events
      = lasting (readWhole (stream ++ more)).events

variable {feed : Feed} {stream : Bytes} {reports : List Event}

lemma reported_start : ({} : Feed).Reported [] [] := ⟨follows_start, fun _ _ => rfl⟩

lemma Reported.push (reported : feed.Reported stream reports) (chunk : Bytes) :
    (feed.push chunk).Reported (stream ++ chunk) reports where
  follows := reported.follows.push chunk
  onward := by
    intro more
    rw [List.append_assoc]
    exact reported.onward (chunk ++ more)

lemma Reported.letGo (reported : feed.Reported stream reports) (slack : ℕ) :
    (feed.letGo slack).Reported stream reports where
  follows := reported.follows.letGo slack
  onward := by
    rw [located_letGo reported.follows.resume_le]
    exact reported.onward

/-! ## A call -/

lemma Follows.resume_located_le (follows : feed.Follows stream) :
    feed.located.resume ≤ stream.length := by
  have inside := follows.resume_le
  have all := follows.carries.flushed_add_available
  show feed.session.resume + feed.buffer.flushed ≤ stream.length
  omega

/-- A call to a feed reports what it would report over the whole stream. -/
lemma Follows.lasting_step (follows : feed.Follows stream) :
    lasting (feed.located.step (.ofBytes stream)).events = lasting feed.step.2.events := by
  rcases follows.started with reading | start
  · have shifted := Session.lasting_step_shift reading follows.resume_le
      (stream.take feed.buffer.flushed)
    rwa [follows.carries.length_take, follows.carries.take_append] at shifted
  · obtain ⟨kept, whole⟩ := follows.buffered_of_start start
    rw [located, kept, ← whole]
    rfl

/-- **Right after a call nothing is missing** of what a fresh session reports. -/
theorem Reported.settled (reported : feed.Reported stream reports)
    (signed : stream.take 4 = Session.signature) :
    lasting (reports ++ feed.step.2.events) = lasting (readWhole stream).events := by
  have onward := reported.onward [] (by rwa [List.append_nil])
  rw [List.append_nil, reported.follows.lasting_step] at onward
  rw [lasting_append, onward]

/-- Unless it completes the index, a call keeps the account of what has been reported. -/
lemma Reported.step (reported : feed.Reported stream reports)
    (pending : feed.step.2.outcome ≠ .complete) :
    feed.step.1.Reported stream (reports ++ feed.step.2.events) where
  follows := reported.follows.step pending
  onward := by
    intro more signed
    have follows := reported.follows
    obtain ⟨session, outcome⟩ := follows.step_located
    rw [← outcome] at pending
    have called := Session.lasting_step_append follows.resume_located_le pending more signed
    rw [← reported.onward more signed, ← called, session, follows.lasting_step, lasting_append,
      List.append_assoc]

/-! ## A whole run -/

/-- The delivery that completes the index ends the run, and no more would have been reported of the
bytes never read. -/
lemma Reported.run_of_complete (reported : feed.Reported stream reports) {delivery : Delivery}
    (later : List Delivery) (done : (feed.push delivery.chunk).step.2.outcome = .complete)
    (unread : Bytes) :
    lasting (reports ++ (feed.run (delivery :: later)).2.flatMap Step.events)
      = lasting (readWhole (stream ++ delivery.chunk ++ unread)).events := by
  have pushed := reported.push delivery.chunk
  have whole := pushed.follows.step_eq.2.symm.trans done
  have signed : (stream ++ delivery.chunk).take 4 = Session.signature := by
    by_contra wrong
    exact (readWhole_of_unsigned wrong).2 whole
  have same : lasting (readWhole (stream ++ delivery.chunk ++ unread)).events
      = lasting (readWhole (stream ++ delivery.chunk)).events :=
    Session.lasting_step_append_of_complete whole unread
  rw [run_cons_of_complete later done, List.flatMap_singleton, same]
  exact pushed.settled signed

/-- **What a run reports**, from any feed whose reports are accounted for.  Induction on the
deliveries still to come. -/
theorem Reported.run (reported : feed.Reported stream reports) (delivery : Delivery)
    (later : List Delivery)
    (signed : (stream ++ ((delivery :: later).map Delivery.chunk).flatten).take 4
      = Session.signature) :
    lasting (reports ++ (feed.run (delivery :: later)).2.flatMap Step.events)
      = lasting
          (readWhole (stream ++ ((delivery :: later).map Delivery.chunk).flatten)).events := by
  induction later generalizing feed stream reports delivery with
  | nil =>
      rw [List.map_singleton, List.flatten_singleton] at signed ⊢
      by_cases done : (feed.push delivery.chunk).step.2.outcome = .complete
      · simpa only [List.append_nil] using reported.run_of_complete [] done []
      · rw [run_cons_of_pending [] done]
        simp only [Feed.run, List.flatMap_singleton]
        exact (reported.push delivery.chunk).settled signed
  | cons next later ih =>
      rw [List.map_cons, List.flatten_cons, ← List.append_assoc] at signed ⊢
      by_cases done : (feed.push delivery.chunk).step.2.outcome = .complete
      · exact reported.run_of_complete (next :: later) done _
      · have kept := ((reported.push delivery.chunk).step done).letGo delivery.slack
        rw [run_cons_of_pending _ done, List.flatMap_cons, ← List.append_assoc]
        exact ih kept next signed

/-- **However a stream with the signature is delivered, each element is met once and each warning
given once.**  For every list of chunks, empty ones included, and every choice of how many bytes are
let go after each call: the elements that all calls up to the one that completes the index report as
met, each with its header and the count of bytes in front of it, are those that a single call over
the whole stream reports, in the same order, and so are the messages that are warnings or errors. -/
theorem run_reports_readWhole (deliveries : List Delivery)
    (signed : (deliveries.map Delivery.chunk).flatten.take 4 = Session.signature) :
    let stream := (deliveries.map Delivery.chunk).flatten
    let steps := (({} : Feed).run deliveries).2
    steps.flatMap Step.visits = (readWhole stream).visits ∧
      steps.flatMap (fun step => messages .warn step.events)
        = messages .warn (readWhole stream).events := by
  intro stream steps
  have same : lasting (steps.flatMap Step.events) = lasting (readWhole stream).events := by
    cases deliveries with
    | nil => cases signed
    | cons first later =>
        have all := reported_start.run first later (by rwa [List.nil_append])
        rwa [List.nil_append, List.nil_append] at all
  constructor
  · calc steps.flatMap Step.visits
        = (steps.flatMap Step.events).filterMap Event.visit? := List.filterMap_flatMap.symm
      _ = (lasting (steps.flatMap Step.events)).filterMap Event.visit? :=
          (filterMap_visit?_lasting _).symm
      _ = (readWhole stream).visits := by rw [same, filterMap_visit?_lasting]; rfl
  · calc steps.flatMap (fun step => messages .warn step.events)
        = messages .warn (steps.flatMap Step.events) := by
          simp only [messages, List.filterMap_flatMap, List.filter_flatMap]
      _ = messages .warn (lasting (steps.flatMap Step.events)) :=
          (messages_warn_lasting _).symm
      _ = messages .warn (readWhole stream).events := by rw [same, messages_warn_lasting]

/-- A duration whose nine bytes spell no integer, and a byte that no header starts with.  The cuts
are inside the header of the segment and inside the duration, and behind the last one nothing has
arrived. -/
def oddDuration : List Delivery :=
  [⟨[0x1A, 0x45, 0xDF, 0xA3, 0x80, 0x18, 0x53], 3⟩,
    ⟨[0x80, 0x67, 0xFF, 0x44, 0x89, 0x89, 0, 0, 0], 5⟩,
    ⟨[0, 0, 0, 0, 0, 0, 0x00], 100⟩, ⟨[], 0⟩]

/-- Each of the two elements that are cut is met once, and each of the two warnings given once. -/
theorem run_reports_readWhole_oddDuration :
    let steps := (({} : Feed).run oddDuration).2
    (oddDuration.map Delivery.chunk).flatten.take 4 = Session.signature ∧ steps.length = 4 ∧
      (steps.flatMap Step.visits).map (·.header.kind?)
        = [some .signature, some .segment, some .duration] ∧
      (steps.flatMap fun step => messages .warn step.events).length = 2 := by
  intro steps
  have signed : (oddDuration.map Delivery.chunk).flatten.take 4 = Session.signature := by decide
  obtain ⟨visits, warnings⟩ := run_reports_readWhole oddDuration signed
  have calls : steps.length = 4 := by decide +kernel
  refine ⟨signed, calls, ?_, ?_⟩
  · rw [visits]
    decide +kernel
  · rw [warnings]
    decide +kernel

end CueIndex.Feed
