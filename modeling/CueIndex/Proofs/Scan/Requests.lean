import Mathlib
import CueIndex.Proofs.Element.Failures
import CueIndex.Proofs.Feed.Stalling
import CueIndex.Proofs.Scan.Verdicts

/-!
# Scans at their requests

A scan holds on to bytes only while it waits for more, so what it holds on to is a matter of the
moments at which it makes a request.  These are listed here beside the run.

* `Scan.asking` — the scan at each request of its run, one after the other.
* **`Scan.Runs`** — a run with its requests and its conclusion, as a relation with one case for each
  way in which it goes on or ends; `runs_run`, `Runs.eq_run`.
* `Scan.atRequests`, `runs_scan` — a whole scan at its requests: a run, unless the options are
  refused.
* **`settles_or_waiting`** — everything that a scan can do between two requests.
* `Runs.map_requests` — there are as many as the conclusion counts.
* `Waits`, **`Feed.Follows.waits`** — the bytes ahead of a feed that has to wait are few, or fewer
  than the element ahead declares.
* `Runs.poised` — whenever a scan makes a request, this is so, and it has let go of what it may.
* **`request_bounded`** — what a scan holds on to at a request, with bounds.
-/

namespace CueIndex

namespace Scan

/-! ## A run, request by request -/

/-- **The scan at each request of its run**, over the replies that a source gives. -/
def asking (options : ScanOptions) (scan : Scan) (replies : List Reply) : List Scan :=
  let turned := scan.turn options
  match turned.verdict, replies with
  | some _, _ => []
  | none, [] => [turned.scan]
  | none, reply :: replies =>
    match turned.scan.receive reply with
    | (_, some _) => [turned.scan]
    | (next, none) => turned.scan :: next.asking options replies
termination_by structural replies

/-- **A run**, with the scan at each of its requests and its conclusion. -/
inductive Runs (options : ScanOptions) : Scan → List Reply → List Scan → Conclusion → Prop
  /-- The bytes that are there, or the limit, settle it. -/
  | settled {scan : Scan} {verdict : Verdict} (replies : List Reply)
      (decided : (scan.turn options).verdict = some verdict) :
      Runs options scan replies []
        ((scan.turn options).scan.conclude verdict (scan.turn options).events)
  /-- There is nothing behind the last reply. -/
  | exhausted {scan : Scan} (undecided : (scan.turn options).verdict = none) :
      Runs options scan [] [(scan.turn options).scan]
        ⟨.error (.endOfStream (scan.turn options).scan.bytesRead),
          (scan.turn options).scan.requests + 1, (scan.turn options).scan.bytesRead,
          (scan.turn options).events⟩
  /-- The next reply ends it. -/
  | refused {scan ended : Scan} {reply : Reply} {error : ScanError} (replies : List Reply)
      (undecided : (scan.turn options).verdict = none)
      (receives : (scan.turn options).scan.receive reply = (ended, some error)) :
      Runs options scan (reply :: replies) [(scan.turn options).scan]
        (ended.conclude (.error error) (scan.turn options).events)
  /-- The next reply answers it, and the scan goes on. -/
  | answered {scan next : Scan} {reply : Reply} {replies : List Reply} {later : List Scan}
      {conclusion : Conclusion} (undecided : (scan.turn options).verdict = none)
      (receives : (scan.turn options).scan.receive reply = (next, none))
      (onward : Runs options next replies later conclusion) :
      Runs options scan (reply :: replies) ((scan.turn options).scan :: later)
        { conclusion with events := (scan.turn options).events ++ conclusion.events }

variable {options : ScanOptions} {scan : Scan} {stream : Bytes} {replies : List Reply}
  {asked : List Scan} {conclusion : Conclusion}

/-- **A run is determined by the replies.** -/
theorem Runs.eq_run (runs : Runs options scan replies asked conclusion) :
    scan.asking options replies = asked ∧ scan.run options replies = conclusion := by
  induction runs with
  | settled replies decided =>
      unfold run asking
      cases replies <;> simp only [decided, and_self]
  | exhausted undecided =>
      unfold run asking
      simp only [undecided, conclude, and_self]
  | refused replies undecided receives =>
      unfold run asking
      simp only [undecided, receives, and_self]
  | answered undecided receives onward ih =>
      unfold run asking
      simp only [undecided, receives, ih, and_self]

lemma exists_runs (options : ScanOptions) (scan : Scan) (replies : List Reply) :
    ∃ asked conclusion, Runs options scan replies asked conclusion := by
  induction replies generalizing scan with
  | nil =>
      cases decided : (scan.turn options).verdict with
      | some verdict => exact ⟨_, _, .settled [] decided⟩
      | none => exact ⟨_, _, .exhausted decided⟩
  | cons reply replies ih =>
      cases decided : (scan.turn options).verdict with
      | some verdict => exact ⟨_, _, .settled _ decided⟩
      | none =>
          rcases receives : (scan.turn options).scan.receive reply with ⟨next, - | error⟩
          · obtain ⟨later, conclusion, onward⟩ := ih next
            exact ⟨_, _, .answered decided receives onward⟩
          · exact ⟨_, _, .refused replies decided receives⟩

/-- **Every run is one.** -/
theorem runs_run (options : ScanOptions) (scan : Scan) (replies : List Reply) :
    Runs options scan replies (scan.asking options replies) (scan.run options replies) := by
  obtain ⟨asked, conclusion, runs⟩ := exists_runs options scan replies
  obtain ⟨rfl, rfl⟩ := runs.eq_run
  exact runs

lemma Runs.unique {others : List Scan} {other : Conclusion}
    (runs : Runs options scan replies asked conclusion)
    (again : Runs options scan replies others other) : asked = others ∧ conclusion = other := by
  obtain ⟨rfl, rfl⟩ := runs.eq_run
  exact again.eq_run

/-! ## Whole scans -/

/-- The scan at each request of a whole scan, over the replies that a source gives.  Refused options
lead to none. -/
def atRequests (options : ScanOptions) (replies : List Reply) : List Scan :=
  match options.refusal? with
  | some _ => []
  | none => asking options {} replies

lemma atRequests_of_refused {verdict : Verdict} (refused : options.refusal? = some verdict)
    (replies : List Reply) : atRequests options replies = [] := by
  rw [atRequests, refused]

/-- **A whole scan is a run**, unless its options are refused. -/
theorem runs_scan (begun : options.refusal? = none) (replies : List Reply) :
    Runs options {} replies (atRequests options replies) (CueIndex.scan options replies) := by
  rw [scan_eq_run begun, atRequests, begun]
  exact runs_run options {} replies

/-! ## Up to a request -/

/-- What a scan does that has to wait: it lets go of what it may, and looks at the limit. -/
def held (options : ScanOptions) (scan : Scan) : Turn :=
  let fed : Scan := { scan with feed := scan.feed.step.1 }
  { scan := (fed.compact options).1
    verdict := ((fed.compact options).1.limit? options).map fun limit =>
      .error (.limitReached limit)
    events := scan.feed.step.2.events ++ (fed.compact options).2 }

/-- A turn that settles a scan before any limit is looked at. -/
structure Settles (scan : Scan) (settled : Turn) : Prop where
  decided : ∃ verdict, settled.verdict = some verdict ∧
    ∀ limit, verdict ≠ .error (.limitReached limit)
  requests : settled.scan.requests = scan.requests
  bytesRead : settled.scan.bytesRead = scan.bytesRead
  turn_eq : ∀ options, scan.turn options = settled

/-- A scan that its bytes do not settle. -/
structure Waiting (scan : Scan) : Prop where
  outcome : scan.feed.step.2.outcome = .suspended ∨ scan.feed.step.2.outcome = .signaturePending
  running : scan.feed.step.1.session.stalled = false
  turn_eq : ∀ options, scan.turn options = scan.held options

/-- **Everything that a scan can do between two requests.** -/
theorem settles_or_waiting (scan : Scan) : (∃ settled, scan.Settles settled) ∨ scan.Waiting := by
  rcases called : scan.feed.step with ⟨fed, session, outcome, events⟩
  cases outcome with
  | complete | unrecognised | resumeBeyondEnd | bytesHidden =>
      refine Or.inl ⟨scan.turn {}, ?_, ?_, ?_, ?_⟩ <;> simp [turn, called, complete]
  | suspended | signaturePending =>
      cases stalled : fed.session.stalled with
      | true => refine Or.inl ⟨scan.turn {}, ?_, ?_, ?_, ?_⟩ <;> simp [turn, called, stalled]
      | false => refine Or.inr ⟨?_, ?_, ?_⟩ <;> simp [turn, held, called, stalled]

lemma waiting_of_undecided (undecided : (scan.turn options).verdict = none) : scan.Waiting := by
  rcases scan.settles_or_waiting with ⟨settled, settles⟩ | waiting
  · obtain ⟨verdict, decided, -⟩ := settles.decided
    rw [settles.turn_eq, decided] at undecided
    cases undecided
  · exact waiting

/-- Between two requests nothing is requested and nothing received. -/
lemma counts_turn (options : ScanOptions) (scan : Scan) :
    (scan.turn options).scan.requests = scan.requests ∧
      (scan.turn options).scan.bytesRead = scan.bytesRead := by
  rcases scan.settles_or_waiting with ⟨settled, settles⟩ | waiting
  · rw [settles.turn_eq]
    exact ⟨settles.requests, settles.bytesRead⟩
  · rw [waiting.turn_eq, held]
    dsimp only
    rw [Scan.compact]
    dsimp only
    split <;> exact ⟨rfl, rfl⟩

/-- Up to a request a feed goes on to follow the stream. -/
lemma follows_turn (follows : scan.feed.Follows stream)
    (undecided : (scan.turn options).verdict = none) :
    (scan.turn options).scan.feed.Follows stream := by
  have waiting := waiting_of_undecided undecided
  have pending : scan.feed.step.2.outcome ≠ .complete := by
    rcases waiting.outcome with waits | waits <;> simp [waits]
  have stepped : ({ scan with feed := scan.feed.step.1 } : Scan).feed.Follows stream :=
    follows.step pending
  rw [waiting.turn_eq]
  exact (Follows.compact stepped options).1

/-- A reply after which the scan goes on is counted, and its bytes are. -/
lemma receive_eq_none {next : Scan} {reply : Reply}
    (receives : scan.receive reply = (next, none)) : reply.goesOn = true ∧
      next.requests = scan.requests + 1 ∧ next.bytesRead = scan.bytesRead + reply.chunk.length := by
  rcases reply with (- | ⟨b, rest⟩) | - | reason <;> cases receives <;> exact ⟨rfl, rfl, rfl⟩

lemma follows_receive {next : Scan} {reply : Reply} (follows : scan.feed.Follows stream)
    (receives : scan.receive reply = (next, none)) :
    next.feed.Follows (stream ++ reply.chunk) := by
  obtain ⟨next', same, onward, -⟩ := receive_of_goesOn follows (receive_eq_none receives).1
  rw [receives] at same
  cases same
  exact onward

lemma requests_receive (scan : Scan) (reply : Reply) :
    (scan.receive reply).1.requests = scan.requests + 1 := by
  rcases reply with (- | ⟨b, rest⟩) | - | reason <;> rfl

/-- **A conclusion counts the requests**, and at each of them those before it have been counted. -/
theorem Runs.map_requests (runs : Runs options scan replies asked conclusion) :
    asked.map Scan.requests = List.range' scan.requests asked.length ∧
      conclusion.requests = scan.requests + asked.length := by
  induction runs with
  | @settled scan verdict replies decided => exact ⟨rfl, (counts_turn options scan).1⟩
  | @exhausted scan undecided =>
      have count := (counts_turn options scan).1
      simp [count]
  | @refused scan ended reply error replies undecided receives =>
      have count := (counts_turn options scan).1
      have asks := requests_receive (scan.turn options).scan reply
      rw [receives, count] at asks
      exact ⟨by simp [count], asks⟩
  | @answered scan next reply replies later conclusion undecided receives onward ih =>
      have count := (counts_turn options scan).1
      have requests := (receive_eq_none receives).2.1
      obtain ⟨each, all⟩ := ih
      rw [requests, count] at each all
      refine ⟨?_, ?_⟩
      · rw [List.map_cons, each, count, List.length_cons, List.range'_succ]
      · rw [List.length_cons]
        dsimp only
        omega

lemma map_requests_atRequests (options : ScanOptions) (replies : List Reply) :
    (atRequests options replies).map Scan.requests
      = List.range (CueIndex.scan options replies).requests := by
  cases begun : options.refusal? with
  | some verdict =>
      rw [scan_of_refused begun, atRequests_of_refused begun]
      rfl
  | none =>
      obtain ⟨each, all⟩ := (runs_scan begun replies).map_requests
      rw [each, all, List.range_eq_range']
      simp

lemma length_atRequests (options : ScanOptions) (replies : List Reply) :
    (atRequests options replies).length = (CueIndex.scan options replies).requests := by
  have each := congrArg List.length (map_requests_atRequests options replies)
  rwa [List.length_map, List.length_range] at each

end Scan

/-! ## Waiting for more bytes -/

/-- How many bytes the element ahead takes with everything that it declares, once its header is
there. -/
def spanAhead (ahead : Bytes) : ℕ :=
  match decodeHeader ahead with
  | .ok header => header.span
  | .error _ => 0

/-- **Why a reading waits in front of the bytes ahead**: they are fewer than a header may take, or
fewer than the element ahead declares, which then has to be there whole. -/
def Waits (ahead : Bytes) : Prop :=
  ahead.length < 16 ∨ ∃ header, decodeHeader ahead = .ok header ∧ ahead.length < header.span ∧
    header.kind?.any Kind.isOpen = false

/-- A field that is missed is not missed for want of any bytes at all. -/
lemma fieldWidthAt_ne_empty (bytes : Bytes) (start : ℕ) :
    fieldWidthAt bytes start ≠ .error .empty := by
  intro missed
  rcases fieldWidthAt_eq_error missed with
    ⟨-, other⟩ | ⟨lead, rest, -, ⟨-, other⟩ | ⟨-, -, other⟩⟩ <;> cases other

/-- Sixteen bytes are enough for every header that bytes can complete. -/
lemma length_lt_of_isRecoverable {ahead : Bytes} {error : HeaderError}
    (missed : decodeHeader ahead = .error error) (recoverable : error.isRecoverable = true) :
    ahead.length < 16 := by
  cases error with
  | empty =>
      rcases decodeHeader_eq_error missed with ⟨rfl, -⟩ | first | ⟨idWidth, -, second⟩
      · decide
      · exact absurd first (fieldWidthAt_ne_empty ahead 0)
      · exact absurd second (fieldWidthAt_ne_empty ahead idWidth)
  | truncated needed available =>
      obtain ⟨-, short, bound⟩ := truncated_of_decodeHeader missed
      omega
  | invalidWidth width => cases recoverable

lemma waits_of_nextMove {ahead : Bytes} {gap : Gap} (move : nextMove ahead = .wait gap) :
    Waits ahead := by
  cases read : decodeHeader ahead with
  | error error =>
      refine Or.inl (length_lt_of_isRecoverable read ?_)
      by_contra hopeless
      rw [nextMove, read] at move
      simp only [hopeless] at move
      cases move
  | ok header =>
      have short : ahead.length < header.required := by
        by_contra there
        rw [nextMove_of_decodeHeader read (Nat.le_of_not_lt there)] at move
        split at move <;> cases move
      have inside := (le_of_decodeHeader read).2
      refine Or.inr ⟨header, read, ?_⟩
      unfold Header.required at short
      split at short
      · omega
      · next closed => exact ⟨short, Bool.eq_false_iff.2 closed⟩

/-- **Where a fresh session waits**, over a stream that neither completes the index nor is refused
nor stalls it. -/
theorem waits_readWhole {stream : Bytes} (pending : (readWhole stream).outcome ≠ .complete)
    (accepted : (readWhole stream).outcome ≠ .unrecognised)
    (running : (readWhole stream).session.stalled = false) :
    Waits (stream.drop (readWhole stream).session.resume) := by
  by_cases short : stream.length < 4
  · rw [(readWhole_of_short short).1]
    exact Or.inl (by rw [List.length_drop]; omega)
  by_cases right : stream.take 4 = Session.signature
  · obtain ⟨session, outcome⟩ := readWhole_of_right right
    rw [outcome, Session.outcome_settle] at pending
    rw [Session.settle_of_pending pending] at session
    rw [session] at running ⊢
    obtain ⟨events, last, rest, path, -, ended⟩ := Session.read_of_pending pending
    rcases ended with ⟨⟨gap, move⟩, place⟩ | ⟨-, place⟩
    · obtain ⟨-, -, skipped⟩ := path.resume
      have ahead : rest = stream.drop last.resume := skipped
      rw [place, ← ahead]
      exact waits_of_nextMove move
    · rw [place] at running
      cases running
  · exact absurd (readWhole_of_wrong (Nat.le_of_not_lt short) right).2 accepted

/-- **Where the session of a feed waits.** -/
theorem Feed.Follows.waits {feed : Feed} {stream : Bytes} (follows : feed.Follows stream)
    (paused : feed.step.2.outcome = .suspended ∨ feed.step.2.outcome = .signaturePending)
    (running : feed.step.1.session.stalled = false) : Waits feed.step.1.unread := by
  obtain ⟨located, outcome⟩ := follows.step_eq
  have ahead : feed.step.1.unread = stream.drop (readWhole stream).session.resume := by
    rw [← located, Feed.unread, Feed.located, Session.resume_shift, Nat.add_comm,
      ← List.drop_drop]
    exact congrArg _ follows.buffered.symm
  have still : (readWhole stream).session.stalled = false := by
    rw [← located]
    exact running
  rw [ahead]
  refine waits_readWhole ?_ ?_ still <;> rw [← outcome] <;>
    rcases paused with paused | paused <;> simp [paused]

/-! ## What a scan holds on to -/

namespace Scan

variable {options : ScanOptions} {scan : Scan} {stream : Bytes} {replies : List Reply}
  {asked : List Scan} {conclusion : Conclusion}

/-- **A scan that is about to make a request**: fewer bytes than a request may bring have been taken
in and kept, and the session has to wait in front of the others. -/
structure Poised (options : ScanOptions) (scan : Scan) : Prop where
  resume_lt : scan.feed.session.resume < options.chunkSize
  resume_le : scan.feed.session.resume ≤ scan.feed.buffer.available
  waits : Waits scan.feed.unread

/-- Letting go of bytes that have been taken in leaves those that have not. -/
lemma poised_compact (asks : 0 < options.chunkSize)
    (inside : scan.feed.session.resume ≤ scan.feed.buffer.available)
    (waits : Waits scan.feed.unread) : (scan.compact options).1.Poised options := by
  unfold Scan.compact
  dsimp only
  split
  · have start : (scan.feed.compact scan.feed.session.resume).session.resume = 0 :=
      Nat.sub_self _
    have same : (scan.feed.compact scan.feed.session.resume).unread = scan.feed.unread := by
      rw [Feed.unread, start, List.drop_zero]
      rfl
    refine ⟨?_, ?_, ?_⟩ <;> dsimp only
    · rwa [start]
    · rw [start]
      exact Nat.zero_le _
    · rwa [same]
  · next few => exact ⟨Nat.lt_of_not_le few, inside, waits⟩

lemma poised_turn (asks : 0 < options.chunkSize) (follows : scan.feed.Follows stream)
    (undecided : (scan.turn options).verdict = none) :
    (scan.turn options).scan.Poised options := by
  have waiting := waiting_of_undecided undecided
  rw [waiting.turn_eq]
  exact poised_compact asks (Session.resume_step_le follows.resume_le)
    (follows.waits waiting.outcome waiting.running)

/-- **Whenever it makes a request, a scan is poised to.**  Induction on the run: up to a request the
feed goes on to follow the stream, and so it does with the bytes of the reply. -/
theorem Runs.poised (runs : Runs options scan replies asked conclusion)
    (asks : 0 < options.chunkSize) (follows : scan.feed.Follows stream) :
    ∀ asking ∈ asked, asking.Poised options := by
  induction runs generalizing stream with
  | settled replies decided => simp
  | exhausted undecided => simpa using poised_turn asks follows undecided
  | refused replies undecided receives => simpa using poised_turn asks follows undecided
  | answered undecided receives onward ih =>
      intro asking member
      rcases List.mem_cons.1 member with rfl | later
      · exact poised_turn asks follows undecided
      · exact ih (follows_receive (follows_turn follows undecided) receives) asking later

/-- What a scan holds on to that is poised to make a request. -/
lemma Poised.available_lt (poised : scan.Poised options) :
    scan.feed.buffer.available < options.chunkSize + max 16 (spanAhead scan.feed.unread) := by
  have lt := poised.resume_lt
  have ahead : scan.feed.unread.length
      = scan.feed.buffer.available - scan.feed.session.resume := List.length_drop ..
  rcases poised.waits with few | ⟨header, read, short, -⟩
  · omega
  · rw [spanAhead, read]
    dsimp only
    omega

/-- A reply adds its own bytes to what a scan holds on to. -/
lemma available_receive_le (scan : Scan) (reply : Reply) :
    (scan.receive reply).1.feed.buffer.available
      ≤ scan.feed.buffer.available + reply.chunk.length := by
  rcases reply with (- | ⟨b, rest⟩) | - | reason
  case bytes.cons => exact (ChunkBuffer.available_push ..).le
  all_goals exact Nat.le_add_right _ _

lemma poised_atRequests (asks : 0 < options.chunkSize) (replies : List Reply) :
    ∀ scan ∈ atRequests options replies, scan.Poised options := by
  cases begun : options.refusal? with
  | some verdict =>
      rw [atRequests_of_refused begun]
      simp
  | none => exact (runs_scan begun replies).poised asks Feed.follows_start

/-- **A scan holds on to less than a request and the element that it waits for.**  Whenever it makes
a request, which is as often as its conclusion counts, fewer bytes than the request may bring have
been taken in and kept.  The others are fewer than sixteen, or fewer than the element ahead declares
with its header, and this element is not one of those that only the header of has to be there.  So
however much of the stream has been read, what is held on to is bounded by a request and the element
ahead, and a reply adds a request to it at most. -/
theorem request_bounded (options : ScanOptions) (asks : 0 < options.chunkSize)
    (replies : List Reply) :
    (atRequests options replies).map Scan.requests
        = List.range (CueIndex.scan options replies).requests ∧
    ∀ scan ∈ atRequests options replies,
      scan.feed.session.resume < options.chunkSize ∧
      scan.feed.session.resume ≤ scan.feed.buffer.available ∧
      (scan.feed.buffer.available - scan.feed.session.resume < 16 ∨
        ∃ header, decodeHeader scan.feed.unread = .ok header ∧
          scan.feed.buffer.available - scan.feed.session.resume < header.span ∧
          header.kind? ≠ some .segment ∧ header.kind? ≠ some .cues ∧
          header.kind? ≠ some .cluster) ∧
      scan.feed.buffer.available < options.chunkSize + max 16 (spanAhead scan.feed.unread) ∧
      ∀ reply : Reply, reply.chunk.length ≤ options.chunkSize →
        (scan.receive reply).1.feed.buffer.available
          ≤ scan.feed.buffer.available + options.chunkSize := by
  refine ⟨map_requests_atRequests options replies, fun scan member => ?_⟩
  have poised := poised_atRequests asks replies scan member
  have ahead : scan.feed.unread.length
      = scan.feed.buffer.available - scan.feed.session.resume := List.length_drop ..
  refine ⟨poised.resume_lt, poised.resume_le, ?_, poised.available_lt, ?_⟩
  · rw [← ahead]
    refine poised.waits.imp_right ?_
    rintro ⟨header, read, short, closed⟩
    refine ⟨header, read, short, ?_, ?_, ?_⟩ <;> rintro known <;> rw [known] at closed <;>
      cases closed
  · intro reply fits
    exact Nat.le_trans (scan.available_receive_le reply) (Nat.add_le_add_left fits _)

/-- A signature element, the header of a segment, and an element of twenty bytes that nobody knows,
from a source that ends after sixteen of them. -/
def unknownCut : List Reply :=
  [.bytes [0x1A, 0x45, 0xDF, 0xA3], .bytes [0x80, 0x18, 0x53, 0x80], .interrupted,
    .bytes [0x67, 0xFF, 0xEC, 0x94], .bytes [0x00, 0x00, 0x00, 0x00],
    .bytes [0x00, 0x00, 0x00, 0x00], .bytes [0x00, 0x00, 0x00, 0x00],
    .bytes [0x00, 0x00, 0x00, 0x00]]

/-- The last of nine requests, for four bytes each, is made with eighteen bytes of the unknown
element there, which are all that is held on to. -/
theorem request_bounded_unknownCut :
    (CueIndex.scan { chunkSize := 4 } unknownCut).requests = 9 ∧
    ∃ scan ∈ atRequests { chunkSize := 4 } unknownCut,
      scan.requests = 8 ∧ scan.feed.buffer.available = 18 ∧
      scan.feed.session.resume < 4 ∧ 18 < 4 + max 16 (spanAhead scan.feed.unread) ∧
      ∃ header, decodeHeader scan.feed.unread = .ok header ∧
        18 - scan.feed.session.resume < header.span := by
  obtain ⟨counted, bounded⟩ := request_bounded { chunkSize := 4 } (by decide) unknownCut
  have nine : (CueIndex.scan { chunkSize := 4 } unknownCut).requests = 9 := by decide +kernel
  have held : ∀ scan ∈ atRequests { chunkSize := 4 } unknownCut, scan.requests = 8 →
      scan.feed.buffer.available = 18 ∧ scan.feed.session.resume = 0 := by decide +kernel
  have counts : 8 ∈ (atRequests { chunkSize := 4 } unknownCut).map Scan.requests := by
    rw [counted, nine]
    decide
  obtain ⟨scan, member, eighth⟩ := List.mem_map.1 counts
  obtain ⟨available, start⟩ := held scan member eighth
  obtain ⟨kept, -, pending, total, -⟩ := bounded scan member
  rw [available, start] at pending
  rw [available] at total
  obtain ⟨header, read, short, -⟩ := pending.resolve_left (by decide)
  exact ⟨nine, scan, member, eighth, available, kept, total, header, read, by rwa [start]⟩

end Scan

end CueIndex
