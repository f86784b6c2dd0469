import Mathlib
import CueIndex.Proofs.Feed.History

/-!
# The end of the cues

A cues element of known size says where its last child ends, and the index is complete there.  The
session knows that place as a count, so it recognises it as long as it goes on counting from the
same signature element and no other cues element takes the place of the first.

* **`met_before_cuesEnd`** — then no element is met that starts at the end of the cues or behind it,
  and the call that comes there completes the index.
* `cuesEnd_passed_after_signature`, `cuesEnd_passed_after_cues` — a signature element or another
  cues element among the children takes the session past the end of the cues.
-/

namespace CueIndex.Feed

variable {feed : Feed} {stream : Bytes} {log : List Meeting}

/-- As long as the index is not complete, the next element starts before the end of the cues. -/
lemma History.lt_end (history : History feed stream log) (live : feed.session.status ≠ .finished)
    {before later : List Meeting} {cues : Meeting} (split : log = before ++ cues :: later)
    (isCues : cues.kind? = some .cues)
    (undisturbed : ∀ m ∈ later, m.kind? ≠ some .signature ∧ m.kind? ≠ some .cues) :
    feed.position < cues.place + cues.header.span :=
  history.ledger.lt_end (history.phased.ongoing live) split isCues undisturbed

/-- Every element behind a cues element was met before its end. -/
lemma History.place_lt_end (history : History feed stream log)
    {before later : List Meeting} {cues : Meeting} (split : log = before ++ cues :: later)
    (isCues : cues.kind? = some .cues)
    (undisturbed : ∀ m ∈ later, m.kind? ≠ some .signature ∧ m.kind? ≠ some .cues) :
    ∀ m ∈ later, m.place < cues.place + cues.header.span := by
  intro m among
  obtain ⟨between, behind, rfl⟩ := List.append_of_mem among
  have placed := history.ledger.met (before ++ cues :: between) m behind (by simp [split])
  refine placed.inTime before cues between rfl isCues fun other inBetween => ?_
  exact undisturbed other (List.mem_append_left _ inBetween)

/-- **Nothing behind the cues is met.**  Take any history of a feed and its next call, and a cues
element of known size that was met, with no signature and no other cues element behind it.  Then
every element behind it starts before the end of its payload, and a call that comes to this end
completes the index. -/
theorem met_before_cuesEnd (history : History feed stream log)
    {before later : List Meeting} {cues : Meeting} {size : UInt64}
    (split : log ++ feed.meetings = before ++ cues :: later) (isCues : cues.kind? = some .cues)
    (known : cues.header.size = .known size)
    (undisturbed : ∀ m ∈ later, m.kind? ≠ some .signature ∧ m.kind? ≠ some .cues) :
    (∀ m ∈ later, m.place < cues.place + cues.header.length + size.toNat) ∧
    (feed.session.status ≠ .finished →
      cues.place + cues.header.length + size.toNat ≤ feed.step.1.position →
      feed.step.2.outcome = .complete) := by
  have span : cues.place + cues.header.length + size.toNat = cues.place + cues.header.span := by
    rw [Header.span, known, Size.extent, Nat.add_assoc]
  have next := history.step
  rw [span]
  refine ⟨next.place_lt_end split isCues undisturbed, fun live reached => ?_⟩
  by_contra pending
  have ongoing : feed.step.1.session.status ≠ .finished := fun done =>
    pending ((Session.Calls.complete_iff feed.calls_step).2 ⟨live, done⟩)
  have := next.lt_end ongoing split isCues undisturbed
  omega

/-- Five bytes of cues that are one skipped element, and a tick length behind them. -/
def skippedInCues : Bytes :=
  [0x1A, 0x45, 0xDF, 0xA3, 0x80, 0x18, 0x53, 0x80, 0x67, 0xFF, 0x1C, 0x53, 0xBB, 0x6B, 0x85,
    0xEC, 0x83, 0x00, 0x00, 0x00, 0x15, 0x49, 0xA9, 0x66, 0x85, 0x2A, 0xD7, 0xB1, 0x81, 0x07]

/-- The tick length behind these cues is not met. -/
theorem met_before_cuesEnd_skipped_child :
    let feed := ({} : Feed).push skippedInCues
    ∃ before cues later, feed.meetings = before ++ cues :: later ∧ cues.kind? = some .cues ∧
      cues.header.size = .known 5 ∧ later.length = 1 ∧
      (∀ m ∈ later, m.place < cues.place + cues.header.length + 5) ∧
      feed.step.2.outcome = .complete := by
  intro feed
  have history : History feed skippedInCues [] := .push skippedInCues .start
  let cues : Meeting := ⟨10, ⟨⟨Kind.cues.id, .known 5, 5⟩, 10, 0⟩⟩
  let child : Meeting := ⟨15, ⟨⟨0xEC, .known 3, 2⟩, 15, 0⟩⟩
  have met : feed.meetings = feed.meetings.take 2 ++ cues :: [child] := by decide +kernel
  have quiet : ∀ m ∈ [child], m.kind? ≠ some .signature ∧ m.kind? ≠ some .cues := by decide
  have known : cues.header.size = .known 5 := rfl
  obtain ⟨before, completes⟩ := met_before_cuesEnd history met (by decide) known quiet
  have live : feed.session.status ≠ .finished := by decide
  have reached : 20 ≤ feed.step.1.position := by decide +kernel
  exact ⟨_, cues, [child], met, by decide, known, rfl, before, completes live reached⟩

/-! ## Children that take the session past the end -/

/-- Five bytes of cues that are a signature element, and a tick length behind them. -/
def signatureInCues : Bytes :=
  [0x1A, 0x45, 0xDF, 0xA3, 0x80, 0x18, 0x53, 0x80, 0x67, 0xFF, 0x1C, 0x53, 0xBB, 0x6B, 0x85,
    0x1A, 0x45, 0xDF, 0xA3, 0x80, 0x15, 0x49, 0xA9, 0x66, 0x85, 0x2A, 0xD7, 0xB1, 0x81, 0x07]

/-- **The count starts over and falls behind the end of the cues**, so the tick length behind them
is met and kept, and the index is not complete. -/
theorem cuesEnd_passed_after_signature :
    let feed := ({} : Feed).push signatureInCues
    History feed signatureInCues [] ∧
      (∃ before cues later m, feed.meetings = before ++ cues :: later ∧
        cues.kind? = some .cues ∧ cues.header.size = .known 5 ∧ m ∈ later ∧
        cues.place + cues.header.length + 5 ≤ m.place ∧ m.kind? = some .timeScale) ∧
      feed.step.1.session.info.timeScale = 7 ∧ feed.step.2.outcome = .suspended := by
  intro feed
  let cues : Meeting := ⟨10, ⟨⟨Kind.cues.id, .known 5, 5⟩, 10, 0⟩⟩
  let tick : Meeting := ⟨25, ⟨⟨Kind.timeScale.id, .known 1, 4⟩, 10, 0⟩⟩
  have met : feed.meetings = feed.meetings.take 2 ++ cues :: feed.meetings.drop 3 := by
    decide +kernel
  have behind : tick ∈ feed.meetings.drop 3 := by decide +kernel
  refine ⟨.push signatureInCues .start, ⟨_, cues, _, tick, met, by decide, rfl, behind, ?_⟩, ?_, ?_⟩
  · decide
  · decide +kernel
  · decide +kernel

/-- Five bytes of cues that are the header of another cues element, and a tick length behind
them. -/
def cuesInCues : Bytes :=
  [0x1A, 0x45, 0xDF, 0xA3, 0x80, 0x18, 0x53, 0x80, 0x67, 0xFF, 0x1C, 0x53, 0xBB, 0x6B, 0x85,
    0x1C, 0x53, 0xBB, 0x6B, 0x8F, 0x15, 0x49, 0xA9, 0x66, 0x85, 0x2A, 0xD7, 0xB1, 0x81, 0x07]

/-- The end of the inner cues takes the place of that of the outer ones, with the same effect. -/
theorem cuesEnd_passed_after_cues :
    let feed := ({} : Feed).push cuesInCues
    (∃ m ∈ feed.meetings, m.place = 25 ∧ m.kind? = some .timeScale) ∧
      feed.step.1.session.cuesEnd = some 35 ∧ feed.step.2.outcome = .suspended := by
  intro feed
  refine ⟨?_, by decide +kernel, by decide +kernel⟩
  exact ⟨⟨25, ⟨⟨Kind.timeScale.id, .known 1, 4⟩, 25, 0⟩⟩, by decide +kernel, rfl, by decide⟩

end CueIndex.Feed
