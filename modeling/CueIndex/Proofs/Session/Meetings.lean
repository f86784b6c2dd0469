import Mathlib
import CueIndex.Proofs.Session.Lifecycle

/-!
# Where elements are met

A session counts the bytes that it has taken in, and every position that it keeps is such a count.
The count starts over at every signature element, so what a position means in the stream depends on
which elements were met before.  The elements that were met are listed here with their places in the
stream, and the numbers of a session are explained from the list.

* `Meeting`, `Meeting.listFrom` — an element and the place where it starts: elements stand one
  behind the other, each where the one before it has been taken in.
* `origin` — the start of the last signature element, which the session counts from.
* `LastOf` — the last element of a kind.
* **`Session.Ledger`** — every number of a session, explained from the elements that were met.
* **`Session.Ledger.reads`**, `Session.Ledger.calls` — a reading and a call keep the ledger.
-/

namespace CueIndex

/-! ## Lists of meetings -/

/-- An element that was met, and where in the stream it starts. -/
structure Meeting where
  place : ℕ
  visit : Visit
  deriving DecidableEq, Repr

namespace Meeting

def header (m : Meeting) : Header := m.visit.header

def kind? (m : Meeting) : Option Kind := m.header.kind?

/-- Elements that are met one after the other from a place on. -/
def listFrom (place : ℕ) : List Visit → List Meeting
  | [] => []
  | visit :: later => ⟨place, visit⟩ :: listFrom (place + visit.header.advance) later

/-- No element starts before the place that the list starts from. -/
lemma le_of_mem_listFrom {place : ℕ} {visits : List Visit} {m : Meeting}
    (among : m ∈ listFrom place visits) : place ≤ m.place := by
  induction visits generalizing place with
  | nil => cases among
  | cons visit later ih =>
      rcases List.mem_cons.1 among with rfl | behind
      · exact Nat.le_refl _
      · have := ih behind
        omega

end Meeting

/-- **Where a session counts from**: the start of the last signature element that was met, or of the
stream if there was none. -/
def origin (log : List Meeting) : ℕ :=
  ((log.filter (·.kind? = some .signature)).getLast?.map Meeting.place).getD 0

/-- The last element of a kind. -/
def LastOf (kind : Kind) (log : List Meeting) (m : Meeting) : Prop :=
  ∃ before after, log = before ++ m :: after ∧ m.kind? = some kind ∧
    ∀ other ∈ after, other.kind? ≠ some kind

/-- A place in a list with one more member is a place in the list, or that of the new member. -/
lemma eq_or_of_concat_eq {α : Type} {log before after : List α} {new m : α}
    (split : log ++ [new] = before ++ m :: after) :
    (before = log ∧ m = new ∧ after = []) ∨
      ∃ earlier, after = earlier ++ [new] ∧ log = before ++ m :: earlier := by
  rcases after.eq_nil_or_concat with rfl | ⟨earlier, last, rfl⟩
  · obtain ⟨rfl, same⟩ := List.append_inj' split rfl
    cases same
    exact Or.inl ⟨rfl, rfl, rfl⟩
  · rw [List.concat_eq_append, ← List.cons_append, ← List.append_assoc] at split
    obtain ⟨rfl, same⟩ := List.append_inj' split rfl
    cases same
    exact Or.inr ⟨earlier, List.concat_eq_append, rfl⟩

lemma lastOf_concat {kind : Kind} {log : List Meeting} {place : ℕ} {visit : Visit} {m : Meeting}
    (last : LastOf kind (log ++ [⟨place, visit⟩]) m) :
    (m = ⟨place, visit⟩ ∧ visit.header.kind? = some kind) ∨
      (visit.header.kind? ≠ some kind ∧ LastOf kind log m) := by
  obtain ⟨before, after, split, isKind, none⟩ := last
  rcases eq_or_of_concat_eq split with ⟨rfl, rfl, rfl⟩ | ⟨earlier, rfl, rfl⟩
  · exact Or.inl ⟨rfl, isKind⟩
  · have other := none ⟨place, visit⟩ (by simp)
    refine Or.inr ⟨other, before, earlier, rfl, isKind, fun other among => ?_⟩
    exact none other (List.mem_append_left _ among)

lemma origin_concat (log : List Meeting) (place : ℕ) (visit : Visit) :
    origin (log ++ [⟨place, visit⟩])
      = if visit.header.kind? = some .signature then place else origin log := by
  unfold origin
  rw [List.filter_append]
  split
  · next isSignature => simp [Meeting.kind?, Meeting.header, isSignature]
  · next other => simp [Meeting.kind?, Meeting.header, other]

/-- Elements that are no signature do not change what a session counts from. -/
lemma origin_append {front back : List Meeting}
    (none : ∀ m ∈ back, m.kind? ≠ some .signature) : origin (front ++ back) = origin front := by
  have nothing : back.filter (·.kind? = some .signature) = [] :=
    List.filter_eq_nil_iff.2 fun m among => by simpa using none m among
  rw [origin, List.filter_append, nothing, List.append_nil, origin]

namespace Session

/-! ## The ledger -/

/-- **What holds of an element that was met**, given the stream and the elements met before it. -/
structure Placed (stream : Bytes) (before : List Meeting) (m : Meeting) : Prop where
  /-- Its header stands at its place. -/
  decoded : decodeHeader (stream.drop m.place) = .ok m.header
  /-- What it takes in is there.  A cluster is not taken in. -/
  inside : m.kind? = some .cluster ∨ m.place + m.header.advance ≤ stream.length
  /-- The count is the distance from the last signature element. -/
  counted : m.visit.consumed + origin before = m.place
  /-- It starts before the end of the last cues, unless the count has started over since. -/
  inTime : ∀ earlier cues between, before = earlier ++ cues :: between → cues.kind? = some .cues →
    (∀ other ∈ between, other.kind? ≠ some .signature ∧ other.kind? ≠ some .cues) →
    m.place < cues.place + cues.header.span

/-- **The numbers of a session, explained from the elements that were met.**  `place` is where in
the stream the next element starts. -/
structure Ledger (stream : Bytes) (place : ℕ) (log : List Meeting) (s : Session) : Prop where
  met : ∀ before m after, log = before ++ m :: after → Placed stream before m
  counted : s.consumed + origin log = place
  segment : ∀ m, LastOf .segment log m → s.info.segmentOffset = m.visit.consumed ∧
    s.info.segmentDataOffset = m.visit.consumed + m.header.length
  seekHead : ∀ m, LastOf .seekHead log m → s.info.seekHeadOffset = m.visit.consumed
  cues : ∀ m, LastOf .cues log m →
    s.cuesEnd = some (saturate (m.visit.consumed + m.header.span))

variable {s last : Session} {stream ahead : Bytes} {place base : ℕ} {log : List Meeting}
  {header : Header} {visits : List Visit} {outcome : Outcome}

lemma ledger_start : Ledger [] 0 [] {} where
  met before m after split := by simp at split
  counted := rfl
  segment := by rintro m ⟨before, after, split, -⟩; simp at split
  seekHead := by rintro m ⟨before, after, split, -⟩; simp at split
  cues := by rintro m ⟨before, after, split, -⟩; simp at split

/-- A ledger is about the count, the positions and the end of the cues only. -/
lemma Ledger.of_same {other : Session} (ledger : Ledger stream place log s)
    (consumed : other.consumed = s.consumed) (info : other.info = s.info)
    (cuesEnd : other.cuesEnd = s.cuesEnd) : Ledger stream place log other where
  met := ledger.met
  counted := by rw [consumed, ledger.counted]
  segment := by rw [info]; exact ledger.segment
  seekHead := by rw [info]; exact ledger.seekHead
  cues := by rw [cuesEnd]; exact ledger.cues

/-- More of the stream does not change where elements were met. -/
lemma Ledger.append (ledger : Ledger stream place log s) (more : Bytes) :
    Ledger (stream ++ more) place log s where
  met before m after split := by
    have placed := ledger.met before m after split
    have long : m.place ≤ stream.length := by
      by_contra outside
      have read := placed.decoded
      rw [List.drop_eq_nil_of_le (by omega)] at read
      cases read
    refine ⟨?_, ?_, placed.counted, placed.inTime⟩
    · rw [List.drop_append_of_le_length long]
      exact decodeHeader_append placed.decoded more
    · rw [List.length_append]
      exact placed.inside.imp id fun inside => by omega
  counted := ledger.counted
  segment := ledger.segment
  seekHead := ledger.seekHead
  cues := ledger.cues

/-- **As long as the end of the cues has not been reached, the place is before it**, unless the
count has started over since. -/
theorem Ledger.lt_end (ledger : Ledger stream place log s) (ongoing : s.cuesReached? = none)
    {earlier between : List Meeting} {cues : Meeting} (split : log = earlier ++ cues :: between)
    (isCues : cues.kind? = some .cues)
    (undisturbed : ∀ other ∈ between, other.kind? ≠ some .signature ∧
      other.kind? ≠ some .cues) :
    place < cues.place + cues.header.span := by
  have ends := ledger.cues cues
    ⟨earlier, between, split, isCues, fun other among => (undisturbed other among).2⟩
  have before := cuesReached?_eq_none.1 ongoing _ ends
  have start := (ledger.met _ _ _ split).counted
  have same : origin log = origin earlier := by
    rw [split]
    refine origin_append fun other among => ?_
    rcases List.mem_cons.1 among with rfl | among
    · simp [isCues]
    · exact (undisturbed other among).1
  have count := ledger.counted
  have bound := saturate_le (cues.visit.consumed + cues.header.span)
  omega

/-- The next element, once it is met, has its place. -/
lemma Ledger.placed (ledger : Ledger stream place log s) (ongoing : s.cuesReached? = none)
    {visit : Visit} (counts : visit.consumed = s.consumed)
    (decoded : decodeHeader (stream.drop place) = .ok visit.header)
    (inside : visit.header.kind? = some .cluster ∨
      place + visit.header.advance ≤ stream.length) :
    ∀ before m after, log ++ [⟨place, visit⟩] = before ++ m :: after → Placed stream before m := by
  intro before m after split
  rcases eq_or_of_concat_eq split with ⟨rfl, rfl, -⟩ | ⟨earlier, -, whole⟩
  · refine ⟨decoded, inside, ?_, fun _ _ _ => ledger.lt_end ongoing⟩
    rw [counts]
    exact ledger.counted
  · exact ledger.met before m earlier whole

/-- **Meeting an element keeps the ledger.** -/
theorem Ledger.meet (ledger : Ledger stream place log s) (ongoing : s.cuesReached? = none)
    (move : nextMove (stream.drop place) = .take header) :
    Ledger stream (place + header.advance)
      (log ++ [⟨place, s.nextVisit header (stream.drop place)⟩])
      (s.meet header (stream.drop place)) where
  met := by
    have progress := two_le_advance_of_nextMove move
    have fits := advance_le_of_nextMove move
    rw [List.length_drop] at fits
    exact ledger.placed ongoing rfl (decodeHeader_of_nextMove (Or.inl move)).1
      (Or.inr (by rw [header_nextVisit]; omega))
  counted := by
    have count := ledger.counted
    rw [(s.moves_meet header _).consumed, origin_concat, header_nextVisit]
    split <;> omega
  segment m isLast := by
    have moves := s.moves_meet header (stream.drop place)
    rw [moves.segmentOffset, moves.segmentDataOffset]
    rcases lastOf_concat isLast with ⟨rfl, isSegment⟩ | ⟨other, isLast⟩
    · rw [header_nextVisit] at isSegment
      rw [if_pos isSegment, if_pos isSegment]
      exact ⟨rfl, rfl⟩
    · rw [header_nextVisit] at other
      rw [if_neg other, if_neg other]
      exact ledger.segment m isLast
  seekHead m isLast := by
    rw [(s.moves_meet header _).seekHeadOffset]
    rcases lastOf_concat isLast with ⟨rfl, isSeekHead⟩ | ⟨other, isLast⟩
    · rw [header_nextVisit] at isSeekHead
      rw [if_pos isSeekHead]
      rfl
    · rw [header_nextVisit] at other
      rw [if_neg other]
      exact ledger.seekHead m isLast
  cues m isLast := by
    rw [(s.moves_meet header _).cuesEnd]
    rcases lastOf_concat isLast with ⟨rfl, isCues⟩ | ⟨other, isLast⟩
    · rw [header_nextVisit] at isCues
      rw [if_pos isCues]
      rfl
    · rw [header_nextVisit] at other
      rw [if_neg other]
      exact ledger.cues m isLast

/-- What is stopped at is a cluster, and what is met is none. -/
lemma kind?_of_stop (move : nextMove ahead = .stop header) : header.kind? = some .cluster := by
  obtain ⟨read, there⟩ := decodeHeader_of_nextMove (Or.inr move)
  rw [nextMove_of_decodeHeader read there] at move
  split at move
  · assumption
  · cases move

lemma kind?_of_take (move : nextMove ahead = .take header) : header.kind? ≠ some .cluster := by
  obtain ⟨read, there⟩ := decodeHeader_of_nextMove (Or.inl move)
  rw [nextMove_of_decodeHeader read there] at move
  split at move
  · cases move
  · assumption

/-- Stopping at a cluster keeps the ledger, and the place stays in front of the cluster. -/
lemma Ledger.stop (ledger : Ledger stream place log s) (ongoing : s.cuesReached? = none)
    (move : nextMove (stream.drop place) = .stop header) :
    Ledger stream place (log ++ [⟨place, s.stopVisit header⟩]) s := by
  have isCluster := kind?_of_stop move
  have others : ∀ {kind : Kind} {m : Meeting}, kind ≠ .cluster →
      LastOf kind (log ++ [⟨place, s.stopVisit header⟩]) m → LastOf kind log m := by
    intro kind m other isLast
    rcases lastOf_concat isLast with ⟨-, isKind⟩ | ⟨-, isLast⟩
    · exact absurd (Option.some.inj (isKind.symm.trans isCluster)) other
    · exact isLast
  refine ⟨?_, ?_, fun m isLast => ledger.segment m (others (by decide) isLast),
    fun m isLast => ledger.seekHead m (others (by decide) isLast),
    fun m isLast => ledger.cues m (others (by decide) isLast)⟩
  · exact ledger.placed ongoing rfl (decodeHeader_of_nextMove (Or.inr move)).1 (Or.inl isCluster)
  · rw [origin_concat, header_stopVisit, if_neg (by simp [isCluster])]
    exact ledger.counted

/-! ## Readings and calls -/

/-- **A reading keeps the ledger**, with the elements that it meets added in order. -/
theorem Ledger.reads (reads : Reads s ahead visits outcome last)
    (here : ahead = stream.drop (base + s.resume))
    (ledger : Ledger stream (base + s.resume) log s) (ongoing : s.cuesReached? = none) :
    Ledger stream (base + last.resume) (log ++ Meeting.listFrom (base + s.resume) visits) last := by
  induction reads generalizing log with
  | wait => rwa [Meeting.listFrom, List.append_nil]
  | malformed =>
      rw [Meeting.listFrom, List.append_nil]
      exact ledger.of_same rfl rfl rfl
  | stop move =>
      rw [here] at move
      exact ledger.stop ongoing move
  | last move reached =>
      subst here
      have next := ledger.meet ongoing move
      rwa [Nat.add_assoc, ← resume_meet] at next
  | meet move ongoing' later ih =>
      subst here
      have next := ledger.meet ongoing move
      rw [Nat.add_assoc, ← resume_meet] at next
      have arrived := ih (by rw [List.drop_drop, resume_meet, Nat.add_assoc]) next ongoing'
      rwa [List.append_assoc, resume_meet, ← Nat.add_assoc] at arrived

/-- **A call keeps the ledger.** -/
theorem Ledger.calls {bytes : Bytes} (calls : Calls s (.ofBytes bytes) visits outcome last)
    (phased : s.Phased) (buffered : bytes = stream.drop base)
    (ledger : Ledger stream (base + s.resume) log s) :
    Ledger stream (base + last.resume) (log ++ Meeting.listFrom (base + s.resume) visits) last := by
  obtain ⟨status, begins⟩ := phased.begun
  cases calls with
  | finished => rwa [Meeting.listFrom, List.append_nil]
  | unsigned | unread =>
      rw [Meeting.listFrom, List.append_nil, begins]
      exact ledger.of_same rfl rfl rfl
  | @reads _ _ last live inside reads =>
      have settled : ∀ {place log}, Ledger stream place log last →
          Ledger stream place log (last.settled outcome) := by
        intro place log ledger
        unfold Session.settled
        split
        · exact ledger.of_same rfl rfl rfl
        · exact ledger
      rw [begins, ByteSource.available_ofBytes, ByteSource.view_ofBytes, List.take_length] at reads
      rw [resume_settled]
      refine settled (Ledger.reads (s := { s with status := .reading }) reads ?_
        (ledger.of_same rfl rfl rfl) (phased.ongoing live))
      rw [buffered, List.drop_drop]

/-! ## Forward -/

/-- A call moves the session forward. -/
lemma Calls.resume_le {later : ByteSource} (calls : Calls s later visits outcome last)
    (phased : s.Phased) : s.resume ≤ last.resume := by
  obtain ⟨status, begins⟩ := phased.begun
  cases calls with
  | finished => exact Nat.le_refl _
  | unsigned | unread => rw [begins]
  | reads live inside reads =>
      rw [begins] at reads
      rw [resume_settled]
      exact reads.resume_le

end Session

end CueIndex
