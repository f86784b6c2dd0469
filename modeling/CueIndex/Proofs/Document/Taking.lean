import Mathlib
import CueIndex.Proofs.Document.Reading
import CueIndex.Proofs.Feed.Taking

/-!
# Documents whose index is taken in pieces

A cue point is met as a whole or not at all, so wherever a document is cut, the cues that have been
found are finished and the next one has not been begun.  This is what it takes for the pieces of an
index to make up the whole: an integer that came in behind a piece would find no cue to go to.

* `within_prefix` — what lies wholly inside a beginning of a document is a beginning of its parts.
* **`steady_encode`** — so are the cues that a reading of this beginning finds.
* **`gather_encode`** — taking the index of a document in pieces loses nothing, gives nothing twice,
  and does not show in the state of the session otherwise.
-/

namespace CueIndex.Document

variable (doc : Document)

/-! ## Beginnings -/

/-- The parts that end in front of a place are the first ones.  Induction on the parts: behind one
that ends after the place, every other does. -/
lemma within_prefix (start k : ℕ) (parts : List Part) :
    ((placed start parts).filter fun place => place.1 + place.2.encode.length ≤ k).map Prod.snd
      <+: parts := by
  induction parts generalizing start with
  | nil => exact List.prefix_refl _
  | cons part parts ih =>
      rw [placed]
      by_cases fits : start + part.encode.length ≤ k
      · rw [List.filter_cons_of_pos (by simpa using fits), List.map_cons, List.cons_prefix_cons]
        exact ⟨rfl, ih _⟩
      · have nothing : (placed start (part :: parts)).filter
            (fun place => place.1 + place.2.encode.length ≤ k) = [] := by
          refine List.filter_eq_nil_iff.2 ?_
          intro place member
          rcases List.mem_cons.1 member with rfl | member
          · simpa using fits
          · have := (bounds_of_mem_placed member).1
            simp only [decide_eq_true_eq, not_le]
            omega
        rw [← placed, nothing]
        exact List.nil_prefix

lemma partsWithin_prefix (k : ℕ) : doc.partsWithin k <+: doc.parts :=
  within_prefix doc.head.length k doc.parts

/-! ## What a reading of a beginning finds -/

lemma completes_encode (short : doc.encode.length < 2 ^ 63) :
    (readWhole doc.encode).outcome = .complete := by
  have head := doc.four_le_head
  have total := doc.encode_length
  have extent := doc.extent_eq
  have finish : doc.finish = doc.extent + doc.ending.stop.length := rfl
  obtain ⟨outcome, -⟩ := doc.readWhole_cut short (show 4 ≤ doc.encode.length by omega)
  rwa [List.take_length, if_pos (by omega)] at outcome

/-- A reading of the first `k` bytes finds the cues of the parts that lie wholly inside. -/
lemma cues_readWhole_take (short : doc.encode.length < 2 ^ 63) (k : ℕ) :
    (readWhole (doc.encode.take k)).session.cues.toList = cuesOf (doc.partsWithin k) := by
  by_cases few : k < 4
  · have head := doc.four_le_head
    obtain ⟨session, -⟩ := readWhole_of_short
      (show (doc.encode.take k).length < 4 by rw [List.length_take]; omega)
    rw [session, doc.partsWithin_of_lt (by omega)]
    rfl
  · rw [(doc.readWhole_cut short (Nat.le_of_not_lt few)).2]
    exact (doc.within_sessionWithin k).2.2.1

/-- **A document never changes a cue that has been found.** -/
theorem steady_encode (short : doc.encode.length < 2 ^ 63) : Feed.Steady doc.encode := by
  intro start begins
  have extent := doc.extent_eq
  have total := doc.encode_length
  have whole := doc.cues_readWhole_take short doc.encode.length
  rw [List.take_length, doc.partsWithin_of_le (by omega)] at whole
  rw [List.prefix_iff_eq_take.1 begins, whole, doc.cues_readWhole_take short]
  exact (doc.partsWithin_prefix _).filterMap Part.cue?

/-! ## The pieces -/

/-- **Taking the index in pieces loses nothing and gives nothing twice.**  However a document is
delivered, whatever is let go of the bytes taken in, and after whichever deliveries the index so far
is taken: the index is complete with the last delivery that is read, and the cues of the pieces, one
piece behind the other, are those of one call over the whole document.  The last piece has the facts
about the stream, too.  Cues apart, every call leads where it leads if nothing is taken. -/
theorem gather_encode (short : doc.encode.length < 2 ^ 63) (errands : List Errand)
    (all : Feed.brought errands = doc.encode) :
    let gathered := ({} : Feed).gather errands
    let plain := ({} : Feed).run (errands.map Errand.toDelivery)
    let once := (readWhole doc.encode).session.takeIndex.1
    gathered.taken.flatMap SeekIndex.cues = once.cues ∧
      gathered.taken.getLast?.map SeekIndex.toStreamInfo = some once.toStreamInfo ∧
      gathered.steps.getLast?.map Step.outcome = some .complete ∧
      gathered.steps.map Step.apart = plain.2.map Step.apart ∧
      gathered.feed.takeIndex.2 = plain.1.takeIndex.2 := by
  intro gathered plain once
  have started : (readWhole []).outcome ≠ .complete := by
    rw [(readWhole_of_short (by decide)).2]
    simp
  obtain ⟨pieces, last, ends⟩ := Feed.gather_of_steady (doc.steady_encode short)
    (doc.completes_encode short) Feed.follows_start Feed.parted_start started errands all
  obtain ⟨steps, feed⟩ := Feed.gather_dropCues Feed.parted_start errands
  rw [Feed.dropCues_zero] at pieces last ends steps feed
  rw [List.take_zero, List.nil_append] at pieces
  exact ⟨pieces, last, ends, steps, feed⟩

/-- A cue point that says its time in four bytes, and nothing else. -/
def timed (value : UInt64) (fits : value.toNat < 256 ^ 4) : CuesChild :=
  .point ⟨[.leaf (.number .cueTime (List.mem_singleton_self _)
    (.spelled value 4 (by decide) fits) ⟨4, rfl, 1, [0x84], by decide⟩)],
      ⟨6, rfl, 1, [0x86], by decide⟩⟩

/-- A document whose cues are two cue points. -/
def pair : Document :=
  { specimen with
    items := []
    ending := .closed [timed 1 (by decide), timed 2 (by decide)]
      ⟨16, rfl, 1, [0x90], by decide⟩ [0x00] }

/-- The document in three deliveries, the second of which ends inside the second cue point. -/
def pairErrands : List Errand :=
  [⟨⟨pair.encode.take 23, 12⟩, true⟩, ⟨⟨(pair.encode.drop 23).take 4, 5⟩, true⟩,
    ⟨⟨pair.encode.drop 27, 0⟩, false⟩]

/-- The three pieces hold one cue, none and the other. -/
theorem gather_encode_pair :
    (({} : Feed).gather pairErrands).taken.map SeekIndex.cues = [[⟨1, 0, 0⟩], [], [⟨2, 0, 0⟩]] ∧
      (readWhole pair.encode).session.takeIndex.1.cues = [⟨1, 0, 0⟩, ⟨2, 0, 0⟩] ∧
      (({} : Feed).gather pairErrands).steps.getLast?.map Step.outcome = some .complete := by
  obtain ⟨cues, -, last, -, -⟩ := pair.gather_encode (by decide) pairErrands (by decide)
  have pieces : (({} : Feed).gather pairErrands).taken.map SeekIndex.cues
      = [[⟨1, 0, 0⟩], [], [⟨2, 0, 0⟩]] := by decide +kernel
  refine ⟨pieces, ?_, last⟩
  rw [← cues, List.flatMap_def, pieces]
  rfl

end CueIndex.Document
