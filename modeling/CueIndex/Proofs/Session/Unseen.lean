import Mathlib
import CueIndex.Proofs.Session.Meetings

/-!
# Bytes that do not matter

A skipped payload may hold anything, also bytes that look like a cluster or like a broken header,
and nothing behind the end of the index is looked at.  So two streams that differ only there are
read alike, whatever they are.

* `Header.isSkipped`, `Meeting.hides` — the elements whose payload is not looked at, and its bytes.
* `ShowsSame` — two streams that agree from one place to another, skipped payloads apart.
* `Reads.congr`, `Reads.short` — over such a stream a reading goes the same way, if every element is
  there as far as required, and otherwise waits for the first that is not.
* `Step.seenEnd`, `Hidden` — where the bytes end that a call has looked at once it has completed the
  index, and the bytes before that which it has passed over.
* **`readWhole_unseen`** — calls over two such streams lead to the same place.
* `readWhole_cut_at_end` — the stream may not simply end there: a cue point has to be there whole,
  although only its children are looked at.
-/

namespace CueIndex

/-! ## Skipped payloads -/

/-- Whether the payload of an element is passed over without being looked at. -/
def Header.isSkipped (h : Header) : Bool :=
  h.kind?.all fun kind => !kind.isEntered && !kind.isInteger && kind ≠ .cluster

/-- How far an element is looked at: a cluster as far as its header, every other element as far as
it is taken in. -/
def Header.reach (h : Header) : ℕ := if h.kind? = some .cluster then h.length else h.advance

/-- Whether a byte of the stream belongs to the skipped payload of an element. -/
def Meeting.hides (m : Meeting) (i : ℕ) : Prop :=
  m.header.isSkipped = true ∧ m.place + m.header.length ≤ i ∧ i < m.place + m.header.span

instance (m : Meeting) (i : ℕ) : Decidable (m.hides i) :=
  inferInstanceAs (Decidable (_ ∧ _ ∧ _))

namespace Header

variable (h : Header)

lemma length_le_advance : h.length ≤ h.advance := by
  unfold advance span
  split <;> omega

lemma advance_le_span : h.advance ≤ h.span := by
  unfold advance span
  split <;> omega

/-- A skipped element is taken in whole. -/
lemma advance_of_isSkipped (skipped : h.isSkipped = true) : h.advance = h.span := by
  unfold advance
  cases known : h.kind? with
  | none => rfl
  | some kind =>
      rw [isSkipped, known] at skipped
      cases kind <;> first | rfl | cases skipped

/-- So is an element with an integer, and its payload is looked at. -/
lemma advance_of_isInteger {kind : Kind} (known : h.kind? = some kind)
    (integer : kind.isInteger = true) : h.advance = h.span ∧ h.isSkipped = false := by
  rw [advance, isSkipped, known]
  cases kind <;> first | exact ⟨rfl, rfl⟩ | cases integer

/-- An element that is met as soon as its header is there is looked at no further. -/
lemma reach_of_isOpen {kind : Kind} (known : h.kind? = some kind) (opened : kind.isOpen = true) :
    h.reach = h.length := by
  rw [reach, advance, known]
  cases kind <;> first | rfl | cases opened

/-- Every element is looked at no further than it has to be there. -/
lemma reach_le_required : h.reach ≤ h.required := by
  have whole := h.advance_le_span
  cases known : h.kind? with
  | none => simpa [reach, required, known] using whole
  | some kind =>
      cases opened : kind.isOpen with
      | true => simp [h.reach_of_isOpen known opened, required, known, opened]
      | false =>
          have other : kind ≠ .cluster := by rintro rfl; cases opened
          simpa [reach, required, known, opened, other] using whole

lemma length_le_reach : h.length ≤ h.reach := by
  have := h.length_le_advance
  unfold reach
  split <;> omega

end Header

namespace Session

/-! ## Streams that show the same -/

/-- **Two streams agree from one place to another**, except in the skipped payloads of the elements
that were met. -/
def ShowsSame (stream other : Bytes) (place reach : ℕ) (met : List Meeting) : Prop :=
  ∀ i, place ≤ i → i < reach → (∀ m ∈ met, ¬ m.hides i) → other[i]? = stream[i]?

lemma take_drop_congr {stream other : Bytes} {place n : ℕ}
    (same : ∀ i, place ≤ i → i < place + n → other[i]? = stream[i]?) :
    (other.drop place).take n = (stream.drop place).take n := by
  refine List.ext_getElem? fun i => ?_
  rw [List.getElem?_take, List.getElem?_take]
  split
  · rw [List.getElem?_drop, List.getElem?_drop]
    exact same _ (by omega) (by omega)
  · rfl

variable {s last : Session} {stream other : Bytes} {place reach : ℕ} {visit : Visit}
  {visits : List Visit} {outcome : Outcome} {header : Header}

/-- Elements behind an element hide nothing that it takes in. -/
lemma not_hides_of_lt {i : ℕ} {m : Meeting}
    (behind : m ∈ Meeting.listFrom (place + visit.header.advance) visits)
    (before : i < place + visit.header.advance) : ¬ m.hides i := by
  rintro ⟨-, from_le, -⟩
  have := Meeting.le_of_mem_listFrom behind
  omega

lemma ShowsSame.later
    (same : ShowsSame stream other place reach (Meeting.listFrom place (visit :: visits))) :
    ShowsSame stream other (place + visit.header.advance) reach
      (Meeting.listFrom (place + visit.header.advance) visits) := by
  intro i from_le lt shown
  refine same i (by omega) lt fun m among => ?_
  rcases List.mem_cons.1 among with rfl | behind
  · rintro ⟨skipped, -, inside⟩
    have whole := visit.header.advance_of_isSkipped skipped
    simp only [Meeting.header] at inside
    omega
  · exact shown m behind

/-- **The front of an element is the same in both streams**, as far as it is taken in and, if its
payload is skipped, as far as its header. -/
theorem ShowsSame.front
    (same : ShowsSame stream other place reach (Meeting.listFrom place (visit :: visits))) {n : ℕ}
    (covers : place + n ≤ reach) (inside : n ≤ visit.header.advance)
    (looked : visit.header.isSkipped = true → n ≤ visit.header.length) :
    (other.drop place).take n = (stream.drop place).take n := by
  refine take_drop_congr fun i from_le lt => same i from_le (by omega) fun m among => ?_
  rcases List.mem_cons.1 among with rfl | behind
  · rintro ⟨skipped, from_payload, -⟩
    have := looked skipped
    simp only [Meeting.header] at from_payload
    omega
  · exact not_hides_of_lt behind (by omega)

/-- The header of an element that was met is shown by both streams. -/
lemma ShowsSame.decodeHeader
    (same : ShowsSame stream other place reach (Meeting.listFrom place (visit :: visits)))
    (covers : place + visit.header.reach ≤ reach)
    (read : decodeHeader (stream.drop place) = .ok visit.header) :
    decodeHeader (other.drop place) = .ok visit.header := by
  have looked := visit.header.length_le_reach
  exact decodeHeader_of_take_eq read
    (same.front (by omega) visit.header.length_le_advance fun _ => Nat.le_refl _)

/-- **An element is met over both streams**, or stopped at, if both have as much of it as is
required. -/
theorem ShowsSame.nextMove
    (same : ShowsSame stream other place reach (Meeting.listFrom place (visit :: visits)))
    (covers : place + visit.header.reach ≤ reach)
    (long : place + visit.header.required ≤ other.length)
    (move : nextMove (stream.drop place) = .take visit.header ∨
      nextMove (stream.drop place) = .stop visit.header) :
    CueIndex.nextMove (other.drop place) = CueIndex.nextMove (stream.drop place) := by
  obtain ⟨read, there⟩ := decodeHeader_of_nextMove move
  rw [nextMove_of_decodeHeader read there,
    nextMove_of_decodeHeader (same.decodeHeader covers read) (by rw [List.length_drop]; omega)]

/-- **Meeting an element leaves the same over both streams.**  Its payload matters only if it is an
integer, and then both streams show it. -/
theorem ShowsSame.meet (s : Session)
    (same : ShowsSame stream other place reach (Meeting.listFrom place (visit :: visits)))
    (covers : place + visit.header.advance ≤ reach) :
    s.meet visit.header (other.drop place) = s.meet visit.header (stream.drop place) := by
  by_cases integer : ∃ kind, visit.header.kind? = some kind ∧ kind.isInteger = true
  · obtain ⟨kind, known, integer⟩ := integer
    obtain ⟨whole, looked⟩ := visit.header.advance_of_isInteger known integer
    have bytes := same.front (whole ▸ covers) (Nat.le_of_eq whole.symm) fun skipped =>
      absurd (looked.symm.trans skipped) Bool.false_ne_true
    have payload := congrArg (List.drop visit.header.length) bytes
    rw [List.drop_take, List.drop_take, Header.span, Nat.add_sub_cancel_left] at payload
    rw [Session.meet, Session.meet, Header.payload, Header.payload, payload]
  · have other : ∀ kind, visit.header.kind? = some kind → kind.isInteger = false :=
      fun kind known => Bool.eq_false_iff.2 fun yes => integer ⟨kind, known, yes⟩
    rw [Session.meet, Session.meet, Session.visit, Session.visit, s.record_congr other]

/-- An element that is met is looked at as far as it is taken in. -/
lemma reach_of_take {ahead : Bytes} (move : nextMove ahead = .take header) :
    header.reach = header.advance := if_neg (kind?_of_take move)

/-- Both together: the element is met over both streams, and leaves the same. -/
lemma ShowsSame.take (s : Session)
    (same : ShowsSame stream other place reach (Meeting.listFrom place (visit :: visits)))
    (covers : place + visit.header.reach ≤ reach)
    (long : place + visit.header.required ≤ other.length)
    (move : CueIndex.nextMove (stream.drop place) = .take visit.header) :
    CueIndex.nextMove (other.drop place) = .take visit.header ∧
      s.meet visit.header (other.drop place) = s.meet visit.header (stream.drop place) :=
  ⟨(same.nextMove covers long (Or.inl move)).trans move,
    same.meet s (reach_of_take move ▸ covers)⟩

/-- **An element of which too little is there is waited for.** -/
theorem ShowsSame.wait
    (same : ShowsSame stream other place reach (Meeting.listFrom place (visit :: visits)))
    (covers : place + visit.header.reach ≤ reach)
    (short : other.length < place + visit.header.required)
    (move : CueIndex.nextMove (stream.drop place) = .take visit.header ∨
      CueIndex.nextMove (stream.drop place) = .stop visit.header) :
    CueIndex.nextMove (other.drop place) = .wait (.element visit.header.required) := by
  have read := same.decodeHeader covers (decodeHeader_of_nextMove move).1
  have shown := le_of_decodeHeader read
  rw [List.length_drop] at shown
  exact nextMove_of_short read (by rw [List.length_drop]; omega)

/-- Streams of one length that show the same to their end go on alike. -/
lemma ShowsSame.drop_eq (same : ShowsSame stream other place reach [])
    (end_le : stream.length ≤ reach) (length : other.length = stream.length) :
    other.drop place = stream.drop place := by
  refine List.ext_getElem? fun i => ?_
  rw [List.getElem?_drop, List.getElem?_drop]
  by_cases inside : place + i < reach
  · exact same _ (Nat.le_add_right _ _) inside (by simp)
  · rw [List.getElem?_eq_none (by omega), List.getElem?_eq_none (by omega)]

/-! ## Readings -/

/-- The head of a list of meetings and the rest of it. -/
lemma forall_mem_listFrom_cons {property : Meeting → Prop} :
    (∀ m ∈ Meeting.listFrom place (visit :: visits), property m) ↔ property ⟨place, visit⟩ ∧
      ∀ m ∈ Meeting.listFrom (place + visit.header.advance) visits, property m :=
  List.forall_mem_cons

/-- **A reading goes the same way over a stream that shows the same**, if every element that was met
is there as far as required. -/
theorem Reads.congr (reads : Reads s (stream.drop place) visits outcome last)
    (same : ShowsSame stream other place reach (Meeting.listFrom place visits))
    (covers : ∀ m ∈ Meeting.listFrom place visits, m.place + m.header.reach ≤ reach)
    (long : ∀ m ∈ Meeting.listFrom place visits, m.place + m.header.required ≤ other.length)
    (whole : outcome ≠ .complete → stream.length ≤ reach ∧ other.length = stream.length) :
    Reads s (other.drop place) visits outcome last := by
  generalize here : stream.drop place = ahead at reads
  -- along the first reading: both streams stay in step, since each element is met over both
  induction reads generalizing place with
  | wait move =>
      obtain ⟨end_le, length⟩ := whole (by simp)
      rw [same.drop_eq end_le length, here]
      exact .wait move
  | malformed move =>
      obtain ⟨end_le, length⟩ := whole (by simp)
      rw [same.drop_eq end_le length, here]
      exact .malformed move
  | @stop s _ header move =>
      subst here
      have moves := same.nextMove (covers _ (List.mem_singleton_self _))
        (long _ (List.mem_singleton_self _)) (Or.inr move)
      exact .stop (moves.trans move)
  | @last s _ header _ move reached =>
      subst here
      obtain ⟨covered, -⟩ := forall_mem_listFrom_cons.1 covers
      obtain ⟨enough, -⟩ := forall_mem_listFrom_cons.1 long
      obtain ⟨moves, met⟩ := same.take s covered enough move
      rw [header_nextVisit] at moves met
      have last := Reads.last moves (by rw [met]; exact reached)
      rwa [nextVisit, met] at last
  | @meet s last _ header visits outcome move ongoing later ih =>
      subst here
      obtain ⟨covered, behind⟩ := forall_mem_listFrom_cons.1 covers
      obtain ⟨enough, further⟩ := forall_mem_listFrom_cons.1 long
      obtain ⟨moves, met⟩ := same.take s covered enough move
      rw [header_nextVisit] at moves met
      have onward := ih same.later behind further whole (by rw [List.drop_drop]; rfl)
      have further : Reads (s.meet header (other.drop place))
          ((other.drop place).drop header.advance) visits outcome last := by
        rw [met, List.drop_drop]
        exact onward
      have read := Reads.meet moves (by rw [met]; exact ongoing) further
      rwa [nextVisit, met] at read

/-- **A reading waits over a stream that shows the same but ends too early**, in front of the first
element of which too little is there. -/
theorem Reads.short (reads : Reads s (stream.drop place) visits outcome last)
    (same : ShowsSame stream other place reach (Meeting.listFrom place visits))
    (covers : ∀ m ∈ Meeting.listFrom place visits, m.place + m.header.reach ≤ reach)
    (missing : ∃ m ∈ Meeting.listFrom place visits,
      other.length < m.place + m.header.required) :
    ∃ fewer left, Reads s (other.drop place) fewer .suspended left := by
  generalize here : stream.drop place = ahead at reads
  -- along the first reading, up to the first element of which too little is there
  induction reads generalizing place with
  | wait | malformed => simp [Meeting.listFrom] at missing
  | @stop s _ header move =>
      subst here
      obtain ⟨m, among, short⟩ := missing
      cases List.mem_singleton.1 among
      have waits := same.wait (covers _ (List.mem_singleton_self _)) short (Or.inr move)
      exact ⟨_, _, .wait waits⟩
  | @last s _ header _ move reached =>
      subst here
      obtain ⟨m, among, short⟩ := missing
      cases List.mem_singleton.1 among
      have waits := same.wait (covers _ (List.mem_singleton_self _)) short (Or.inl move)
      exact ⟨_, _, .wait waits⟩
  | @meet s _ _ header visits _ move ongoing later ih =>
      subst here
      obtain ⟨covered, behind⟩ := forall_mem_listFrom_cons.1 covers
      by_cases enough : place + header.required ≤ other.length
      · obtain ⟨moves, met⟩ := same.take s covered enough move
        rw [header_nextVisit] at moves met
        obtain ⟨m, among, short⟩ := missing
        have behind_m : m ∈ Meeting.listFrom (place + header.advance) visits := by
          rcases List.mem_cons.1 among with rfl | behind
          · exact absurd enough (Nat.not_le.2 short)
          · exact behind
        obtain ⟨fewer, left, onward⟩ :=
          ih same.later behind ⟨m, behind_m, short⟩ (by rw [List.drop_drop]; rfl)
        exact ⟨_, _, Reads.meet moves (by rw [met]; exact ongoing)
          (by rw [met, List.drop_drop]; exact onward)⟩
      · exact ⟨_, _, .wait (same.wait covered (Nat.lt_of_not_le enough) (Or.inl move))⟩

/-! ## Where a reading has looked -/

/-- How much was looked at of the cluster that a reading stopped at, if it stopped at one. -/
def clusterLength (visits : List Visit) : ℕ :=
  ((visits.find? (·.header.kind? = some .cluster)).map (·.header.length)).getD 0

lemma clusterLength_cons (other : visit.header.kind? ≠ some .cluster) :
    clusterLength (visit :: visits) = clusterLength visits := by
  rw [clusterLength, List.find?_cons_of_neg (by simpa using other), clusterLength]

/-- **Every element is looked at before the place that a reading comes to**, or is the cluster that
it stops at. -/
theorem Reads.reach_le (reads : Reads s ahead visits outcome last) :
    ∀ m ∈ Meeting.listFrom s.resume visits,
      m.place + m.header.reach ≤ last.resume + clusterLength visits := by
  induction reads with
  | wait | malformed => simp [Meeting.listFrom]
  | @stop s _ header move =>
      intro m among
      cases List.mem_singleton.1 among
      have isCluster := kind?_of_stop move
      simp [Meeting.header, Header.reach, isCluster, clusterLength]
  | @last s _ header _ move reached =>
      intro m among
      cases List.mem_singleton.1 among
      have whole := reach_of_take move
      simp only [Meeting.header, header_nextVisit, resume_meet]
      omega
  | @meet s _ _ header visits _ move ongoing later ih =>
      have forward := later.resume_le
      rw [resume_meet] at ih forward
      refine forall_mem_listFrom_cons.2 ⟨?_, fun m behind => ?_⟩
      · have whole := reach_of_take move
        simp only [Meeting.header, header_nextVisit]
        omega
      · rw [clusterLength_cons (kind?_of_take move)]
        exact ih m behind

/-- Every element is there as far as required. -/
lemma Reads.required_le (reads : Reads s (stream.drop place) visits outcome last) :
    ∀ m ∈ Meeting.listFrom place visits, m.place + m.header.required ≤ stream.length := by
  have there : ∀ {place : ℕ} {header : Header}, (nextMove (stream.drop place) = .take header ∨
      nextMove (stream.drop place) = .stop header) → place + header.required ≤ stream.length := by
    intro place header move
    obtain ⟨read, there⟩ := decodeHeader_of_nextMove move
    have progress := le_of_decodeHeader read
    rw [List.length_drop] at progress there
    omega
  generalize here : stream.drop place = ahead at reads
  induction reads generalizing place with
  | wait | malformed => simp [Meeting.listFrom]
  | stop move =>
      subst here
      intro m among
      cases List.mem_singleton.1 among
      exact there (Or.inr move)
  | last move reached =>
      subst here
      intro m among
      cases List.mem_singleton.1 among
      exact there (Or.inl move)
  | meet move ongoing later ih =>
      subst here
      refine forall_mem_listFrom_cons.2 ⟨there (Or.inl move), ?_⟩
      exact ih (by rw [List.drop_drop]; rfl)

/-! ## The signature -/

lemma Reads.head (reads : Reads s ahead (visit :: visits) outcome last) :
    decodeHeader ahead = .ok visit.header := by
  cases reads with
  | stop move => exact (decodeHeader_of_nextMove (Or.inr move)).1
  | last move | meet move => exact (decodeHeader_of_nextMove (Or.inl move)).1

lemma Reads.ne_nil (reads : Reads s ahead visits .complete last) : visits ≠ [] := by
  cases reads <;> simp

/-- The signature is the id of the element that it starts. -/
lemma four_le_length {bytes : Bytes} (right : bytes.take 4 = signature)
    (read : decodeHeader bytes = .ok header) : 4 ≤ header.length := by
  obtain ⟨idWidth, sizeWidth, -, -, first, -, -, -, rfl⟩ := decodeHeader_eq_ok_iff.1 read
  obtain ⟨-, lead, rest, ahead, rfl⟩ := lead_of_fieldWidthAt first
  rw [List.drop_zero] at ahead
  rw [ahead, signature_eq, List.take_succ_cons] at right
  cases (List.cons.inj right).1
  exact Nat.le_add_right (fieldWidth 0x1A) sizeWidth

/-- **A stream that shows the same starts with the signature as well.**  It is never skipped. -/
theorem ShowsSame.signature (right : stream.take 4 = Session.signature)
    (reads : Reads s stream visits outcome last)
    (same : ShowsSame stream other 0 reach (Meeting.listFrom 0 visits)) (four : 4 ≤ reach) :
    other.take 4 = Session.signature := by
  have front : (other.drop 0).take 4 = (stream.drop 0).take 4 := by
    cases visits with
    | nil =>
        refine take_drop_congr fun i from_le lt => same i from_le (by omega) fun m among => ?_
        cases among
    | cons visit visits =>
        have long := four_le_length right reads.head
        have short := visit.header.length_le_advance
        exact same.front (by omega) (by omega) fun _ => long
  exact front.trans right

/-- What has been looked at reaches past the signature, unless the stream ends before that. -/
lemma Reads.four_le (right : stream.take 4 = Session.signature)
    (reads : Reads s stream visits outcome last)
    (covers : ∀ m ∈ Meeting.listFrom 0 visits, m.place + m.header.reach ≤ reach)
    (whole : outcome ≠ .complete → stream.length ≤ reach) : 4 ≤ reach := by
  cases visits with
  | nil =>
      have pending := whole (by rintro rfl; exact reads.ne_nil rfl)
      exact Nat.le_trans (length_of_signature right) pending
  | cons visit visits =>
      have long := four_le_length right reads.head
      have looked := visit.header.length_le_reach
      have covered := (forall_mem_listFrom_cons.1 covers).1
      simp only [Meeting.header] at covered
      omega

end Session

/-! ## Whole streams -/

/-- **Where the bytes end that a call has looked at**, once it has completed the index: at the place
that it has come to, or behind the header of the cluster that starts there. -/
def Step.seenEnd (step : Step) : ℕ := step.session.resume + Session.clusterLength step.visits

/-- The elements that a call over a whole stream meets. -/
def readMeetings (stream : Bytes) : List Meeting := Meeting.listFrom 0 (readWhole stream).visits

/-- **A byte is hidden** if it belongs to the skipped payload of an element that is met. -/
def Hidden (stream : Bytes) (i : ℕ) : Prop := ∃ m ∈ readMeetings stream, m.hides i

instance (stream : Bytes) (i : ℕ) : Decidable (Hidden stream i) :=
  inferInstanceAs (Decidable (∃ m ∈ readMeetings stream, m.hides i))

section Whole

open Session

variable {stream other : Bytes} {reach : ℕ}

lemma showsSame_of_not_hidden
    (agree : ∀ i < reach, ¬ Hidden stream i → other[i]? = stream[i]?) :
    ShowsSame stream other 0 reach (readMeetings stream) :=
  fun i _ lt shown => agree i lt fun ⟨m, among, hides⟩ => shown m among hides

lemma reach_le_seenEnd (right : stream.take 4 = signature) :
    ∀ m ∈ readMeetings stream, m.place + m.header.reach ≤ (readWhole stream).seenEnd := by
  obtain ⟨last, reads, session⟩ := reads_readWhole right
  rw [Step.seenEnd, session, resume_settled]
  exact reads.reach_le

lemma required_le_length (right : stream.take 4 = signature) :
    ∀ m ∈ readMeetings stream, m.place + m.header.required ≤ stream.length := by
  obtain ⟨last, reads, -⟩ := reads_readWhole right
  have start : Reads _ (stream.drop 0) _ _ last := reads
  exact start.required_le

/-- **Calls over two streams that show the same lead to the same place**, if the second has as much
of every element as is required. -/
theorem readWhole_agrees (right : stream.take 4 = signature)
    (same : ShowsSame stream other 0 reach (readMeetings stream))
    (covers : ∀ m ∈ readMeetings stream, m.place + m.header.reach ≤ reach)
    (long : ∀ m ∈ readMeetings stream, m.place + m.header.required ≤ other.length)
    (whole : (readWhole stream).outcome ≠ .complete →
      stream.length ≤ reach ∧ other.length = stream.length) :
    (readWhole other).Agrees (readWhole stream) := by
  obtain ⟨last, reads, session⟩ := reads_readWhole right
  have right' := same.signature right reads
    (reads.four_le right covers fun pending => (whole pending).1)
  have again : Reads _ (other.drop 0) _ _ last := Reads.congr reads same covers long whole
  obtain ⟨outcome, session'⟩ := readWhole_of_reads right' again
  exact ⟨session'.trans session.symm, outcome⟩

/-- Calls over two streams that show the same do not both complete the index if the second has too
little of an element. -/
lemma readWhole_suspended_of_short (right : stream.take 4 = signature)
    (complete : (readWhole stream).outcome = .complete)
    (same : ShowsSame stream other 0 reach (readMeetings stream))
    (covers : ∀ m ∈ readMeetings stream, m.place + m.header.reach ≤ reach)
    (missing : ∃ m ∈ readMeetings stream, other.length < m.place + m.header.required) :
    (readWhole other).outcome = .suspended := by
  obtain ⟨last, reads, -⟩ := reads_readWhole right
  have right' := same.signature right reads
    (reads.four_le right covers fun pending => absurd complete pending)
  have start : Reads _ (stream.drop 0) _ _ last := reads
  obtain ⟨fewer, left, again⟩ := start.short same covers missing
  exact (readWhole_of_reads right' again).1

end Whole

/-- **Calls over two streams lead to the same place, whatever the skipped payloads hold and whatever
follows the end of the index.**  Streams of one length may differ there freely.  Once the index is
complete the length of the other stream does not matter either, as long as it has as much of every
element as is required. -/
theorem readWhole_unseen (stream other : Bytes) :
    (other.length = stream.length →
      (∀ i, ¬ Hidden stream i →
        ((readWhole stream).outcome = .complete → i < (readWhole stream).seenEnd) →
        other[i]? = stream[i]?) →
      (readWhole other).Agrees (readWhole stream)) ∧
    ((readWhole stream).outcome = .complete →
      (∀ i < (readWhole stream).seenEnd, ¬ Hidden stream i → other[i]? = stream[i]?) →
      ((readWhole other).Agrees (readWhole stream) ↔
        ∀ m ∈ readMeetings stream, m.place + m.header.required ≤ other.length)) := by
  by_cases right : stream.take 4 = Session.signature
  · have there := required_le_length right
    have seen := reach_le_seenEnd right
    refine ⟨fun length agree => ?_, fun complete agree => ⟨fun agrees => ?_, fun long => ?_⟩⟩
    · by_cases complete : (readWhole stream).outcome = .complete
      · have same := showsSame_of_not_hidden fun i lt shown => agree i shown fun _ => lt
        exact readWhole_agrees right same seen (length ▸ there) fun pending =>
          absurd complete pending
      · have same : Session.ShowsSame stream other 0 stream.length (readMeetings stream) :=
          showsSame_of_not_hidden fun i _ shown => agree i shown fun done => absurd done complete
        have covers := fun m among =>
          (Nat.add_le_add_left (Header.reach_le_required _) _).trans (there m among)
        exact readWhole_agrees right same covers (length ▸ there) fun _ => ⟨le_rfl, length⟩
    · by_contra missing
      push Not at missing
      have waits := readWhole_suspended_of_short right complete (showsSame_of_not_hidden agree) seen
        missing
      rw [← agrees.outcome, waits] at complete
      cases complete
    · exact readWhole_agrees right (showsSame_of_not_hidden agree) seen long fun pending =>
        absurd complete pending
  · -- nothing is met without the signature, so nothing is hidden
    obtain ⟨none, pending⟩ := readWhole_of_unsigned right
    refine ⟨fun _ agree => ?_, fun complete => absurd complete pending⟩
    have same : other = stream := List.ext_getElem? fun i => by
      refine agree i ?_ fun complete => absurd complete pending
      rintro ⟨m, among, -⟩
      rw [readMeetings, none] at among
      cases among
    rw [same]
    exact Step.Agrees.refl _

/-- A signature element with five bytes of payload, a cluster, and one more byte. -/
def quietPayload : Bytes :=
  [0x1A, 0x45, 0xDF, 0xA3, 0x85, 0x00, 0x00, 0x00, 0x00, 0x00, 0x1F, 0x43, 0xB6, 0x75, 0x80, 0xAA]

/-- The same with another last byte and a payload that looks like a cluster. -/
def clusterInPayload : Bytes :=
  [0x1A, 0x45, 0xDF, 0xA3, 0x85, 0x1F, 0x43, 0xB6, 0x75, 0x80, 0x1F, 0x43, 0xB6, 0x75, 0x80, 0xBB]

/-- What looks like a cluster is not stopped at, and the last byte can be missing. -/
theorem readWhole_unseen_cluster_in_payload :
    (readWhole quietPayload).outcome = .complete ∧ (readWhole quietPayload).seenEnd = 15 ∧
      (∀ i < 15, ¬ Hidden quietPayload i → clusterInPayload[i]? = quietPayload[i]?) ∧
      (readWhole clusterInPayload).Agrees (readWhole quietPayload) ∧
      (readWhole (clusterInPayload.take 15)).Agrees (readWhole quietPayload) := by
  have complete : (readWhole quietPayload).outcome = .complete := by decide +kernel
  have seen : (readWhole quietPayload).seenEnd = 15 := by decide +kernel
  have agree : ∀ i < 15, ¬ Hidden quietPayload i → clusterInPayload[i]? = quietPayload[i]? := by
    decide +kernel
  have enough : ∀ m ∈ readMeetings quietPayload,
      m.place + m.header.required ≤ (clusterInPayload.take 15).length := by decide +kernel
  refine ⟨complete, seen, agree, ?_, ?_⟩
  · refine (readWhole_unseen quietPayload clusterInPayload).1 rfl fun i shown inside => ?_
    exact agree i (seen ▸ inside complete) shown
  · refine ((readWhole_unseen quietPayload (clusterInPayload.take 15)).2 complete ?_).2 enough
    intro i inside shown
    rw [seen] at inside
    rw [List.getElem?_take, if_pos inside]
    exact agree i inside shown

/-! ## A stream that ends too early -/

/-- Two bytes of cues that are the header of a cue point, whose payload goes on behind them. -/
def pointBeyondCues : Bytes :=
  [0x1A, 0x45, 0xDF, 0xA3, 0x80, 0x18, 0x53, 0x80, 0x67, 0xFF, 0x1C, 0x53, 0xBB, 0x6B, 0x82,
    0xBB, 0x83, 0x01, 0x02, 0x03]

/-- **The last three bytes are not looked at but have to be there.**  The index is complete at the
end of the cues, yet the stream that ends there shows no cue point. -/
theorem readWhole_cut_at_end :
    (readWhole pointBeyondCues).outcome = .complete ∧ (readWhole pointBeyondCues).seenEnd = 17 ∧
      (∀ i < 17, (pointBeyondCues.take 17)[i]? = pointBeyondCues[i]?) ∧
      ¬ (readWhole (pointBeyondCues.take 17)).Agrees (readWhole pointBeyondCues) := by
  have complete : (readWhole pointBeyondCues).outcome = .complete := by decide +kernel
  have waits : (readWhole (pointBeyondCues.take 17)).outcome = .suspended := by decide +kernel
  refine ⟨complete, by decide +kernel, by decide, fun agrees => ?_⟩
  have same := agrees.outcome
  rw [complete, waits] at same
  cases same

end CueIndex
