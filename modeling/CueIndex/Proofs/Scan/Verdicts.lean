import Mathlib
import CueIndex.Proofs.Feed.Following
import CueIndex.Scan.Basic

/-!
# Verdicts of scans

A scan asks for bytes, reads what it has, and lets go of what it no longer needs.  Its verdict
depends on the bytes alone: not on how they are cut into replies, not on how many are asked for at a
time, and not on requests that have to be made again.

* `verdictOf?` — what the bytes received so far say about a scan by themselves.
* `turn_of_follows` — between two requests a scan with no limit finds out exactly this.
* `run_of_heard` — a run up to the reply that settles it.
* `scan_eq_run`, `scan_of_refused` — options with which a scan is a run, and those with which it is
  not even begun.
* **`scan_panicked_iff`** — a scan panics for want of a buffer alone.
* **`scan_verdict`** — a whole scan: it ends with the first bytes that decide it, and otherwise with
  the reply that ends the stream.
-/

namespace CueIndex

/-! ## What replies bring -/

/-- The bytes that a reply brings. -/
def Reply.chunk : Reply → Bytes
  | .bytes chunk => chunk
  | .interrupted | .failed _ => []

/-- Whether the source may be asked again after a reply. -/
def Reply.goesOn : Reply → Bool
  | .bytes (_ :: _) | .interrupted => true
  | .bytes [] | .failed _ => false

/-- All bytes that replies bring. -/
def received (replies : List Reply) : Bytes := replies.flatMap Reply.chunk

/-- **What the bytes received so far say about a scan by themselves**, going by one call to a fresh
session over all of them. -/
def verdictOf? (bytes : Bytes) : Option Verdict :=
  let whole := readWhole bytes
  match whole.outcome with
  | .complete => some (.ok whole.session.takeIndex.1)
  | .unrecognised => some (.error .unrecognised)
  | .suspended =>
    if whole.session.stalled then some (.error (.malformedHeader whole.session.consumed)) else none
  | .signaturePending | .resumeBeyondEnd | .bytesHidden => none

namespace Scan

variable {options : ScanOptions} {scan : Scan} {stream : Bytes}

/-! ## Between two requests -/

lemma Follows.compact (follows : scan.feed.Follows stream) (options : ScanOptions) :
    (scan.compact options).1.feed.Follows stream ∧
      (scan.compact options).1.requests = scan.requests ∧
      (scan.compact options).1.bytesRead = scan.bytesRead := by
  unfold Scan.compact
  dsimp only
  split
  · refine ⟨?_, rfl, rfl⟩
    have kept := follows.letGo scan.feed.session.resume
    rwa [Feed.letGo, Nat.min_self] at kept
  · exact ⟨follows, rfl, rfl⟩

/-- **Between two requests a scan finds out what its bytes say by themselves.**  If they say
nothing, its feed goes on to follow the stream. -/
theorem turn_of_follows (follows : scan.feed.Follows stream) (unlimited : options.maxBytes = none) :
    (scan.turn options).verdict = verdictOf? stream ∧
      (scan.turn options).scan.requests = scan.requests ∧
      (scan.turn options).scan.bytesRead = scan.bytesRead ∧
      (verdictOf? stream = none → (scan.turn options).scan.feed.Follows stream) := by
  obtain ⟨located, outcome⟩ := follows.step_eq
  have stalled : scan.feed.step.1.session.stalled = (readWhole stream).session.stalled := by
    rw [← located]; rfl
  have consumed : scan.feed.step.1.session.consumed = (readWhole stream).session.consumed := by
    rw [← located]; rfl
  have index : scan.feed.step.1.session.takeIndex.1 = (readWhole stream).session.takeIndex.1 := by
    rw [← located]; rfl
  have stepped : (readWhole stream).outcome ≠ .complete → scan.feed.step.1.Follows stream := by
    intro pending
    exact follows.step (outcome ▸ pending)
  have waits : (readWhole stream).outcome ≠ .complete →
      let fed : Scan := { scan with feed := scan.feed.step.1 }
      (fed.compact options).1.feed.Follows stream ∧
        (fed.compact options).1.requests = scan.requests ∧
        (fed.compact options).1.bytesRead = scan.bytesRead ∧
        (fed.compact options).1.limit? options = none := by
    intro pending fed
    have here : fed.feed.Follows stream := stepped pending
    obtain ⟨kept, requests, bytesRead⟩ := Follows.compact here options
    exact ⟨kept, requests, bytesRead, by rw [limit?, unlimited]; rfl⟩
  unfold turn verdictOf?
  split
  next feed step called =>
    rw [called] at stalled consumed index outcome stepped waits
    dsimp only at stalled consumed index outcome stepped waits ⊢
    rw [outcome]
    rcases outcome_readWhole stream with ⟨short, still⟩ | wrong | paused | done
    · rw [short] at waits ⊢
      obtain ⟨kept, requests, bytesRead, limit⟩ := waits (by simp)
      dsimp only
      rw [stalled, still]
      exact ⟨by simp [limit], requests, bytesRead, fun _ => kept⟩
    · rw [wrong]
      exact ⟨rfl, rfl, rfl, by simp⟩
    · rw [paused] at waits ⊢
      obtain ⟨kept, requests, bytesRead, limit⟩ := waits (by simp)
      dsimp only
      rw [stalled]
      split
      · rw [consumed]
        exact ⟨rfl, rfl, rfl, by simp⟩
      · exact ⟨by simp [limit], requests, bytesRead, fun _ => kept⟩
    · rw [done]
      refine ⟨?_, rfl, rfl, by simp⟩
      exact congrArg (some ∘ Verdict.ok) index

/-! ## One request after the other -/

lemma run_of_verdict {verdict : Verdict} (decided : (scan.turn options).verdict = some verdict)
    (replies : List Reply) :
    scan.run options replies
      = (scan.turn options).scan.conclude verdict (scan.turn options).events := by
  unfold run
  cases replies <;> simp only [decided]

lemma run_nil_of_undecided (undecided : (scan.turn options).verdict = none) :
    (scan.run options []).verdict = .error (.endOfStream (scan.turn options).scan.bytesRead) ∧
      (scan.run options []).requests = (scan.turn options).scan.requests + 1 ∧
      (scan.run options []).bytesRead = (scan.turn options).scan.bytesRead := by
  unfold run
  simp only [undecided]
  exact ⟨rfl, rfl, rfl⟩

lemma run_cons_of_received {next : Scan} {reply : Reply}
    (undecided : (scan.turn options).verdict = none)
    (receives : (scan.turn options).scan.receive reply = (next, none)) (replies : List Reply) :
    (scan.run options (reply :: replies)).verdict = (next.run options replies).verdict ∧
      (scan.run options (reply :: replies)).requests = (next.run options replies).requests ∧
      (scan.run options (reply :: replies)).bytesRead = (next.run options replies).bytesRead := by
  have unfolded : scan.run options (reply :: replies)
      = { next.run options replies with
          events := (scan.turn options).events ++ (next.run options replies).events } := by
    conv_lhs => unfold run
    simp only [undecided, receives]
  rw [unfolded]
  exact ⟨rfl, rfl, rfl⟩

lemma run_cons_of_refused {ended : Scan} {error : ScanError} {reply : Reply}
    (undecided : (scan.turn options).verdict = none)
    (receives : (scan.turn options).scan.receive reply = (ended, some error))
    (replies : List Reply) :
    scan.run options (reply :: replies)
      = ended.conclude (.error error) (scan.turn options).events := by
  unfold run
  simp only [undecided, receives]

/-- A reply after which the source may be asked again is received. -/
lemma receive_of_goesOn (follows : scan.feed.Follows stream) {reply : Reply}
    (goesOn : reply.goesOn = true) :
    ∃ next : Scan, scan.receive reply = (next, none) ∧
      next.feed.Follows (stream ++ reply.chunk) ∧
      next.requests = scan.requests + 1 ∧
      next.bytesRead = scan.bytesRead + reply.chunk.length := by
  cases reply with
  | failed reason => cases goesOn
  | interrupted =>
      refine ⟨_, rfl, ?_, rfl, rfl⟩
      rw [Reply.chunk, List.append_nil]
      exact follows
  | bytes chunk =>
      cases chunk with
      | nil => cases goesOn
      | cons b rest => exact ⟨_, rfl, follows.push (b :: rest), rfl, rfl⟩

end Scan

/-! ## Up to the reply that settles a scan -/

/-- The replies `before` are those that a scan hears and goes on after, when the bytes `got` were
there to begin with: nothing sooner decides, and then either the bytes do or the next reply ends the
stream. -/
structure Heard (got : Bytes) (before after : List Reply) : Prop where
  goesOn : ∀ reply ∈ before, reply.goesOn = true
  undecided : ∀ sooner, sooner <+: before → sooner ≠ before →
    verdictOf? (got ++ received sooner) = none
  settled : (∃ verdict, verdictOf? (got ++ received before) = some verdict) ∨
    ∀ reply ∈ after.head?, reply.goesOn = false

/-- What settles a scan: its verdict, and the requests that it makes for it. -/
structure Settlement where
  verdict : Verdict
  requests : Nat

/-- **How a scan ends that has been given the bytes `got`** when the source answers `after` next. -/
def settlement (got : Bytes) (after : List Reply) : Settlement :=
  match verdictOf? got, after with
  | some verdict, _ => ⟨verdict, 0⟩
  | none, .failed reason :: _ => ⟨.error (.unreadable reason), 1⟩
  | none, _ => ⟨.error (.endOfStream got.length), 1⟩

lemma settlement_of_verdict {got : Bytes} {verdict : Verdict}
    (decided : verdictOf? got = some verdict) (after : List Reply) :
    settlement got after = ⟨verdict, 0⟩ := by
  simp only [settlement, decided]

lemma settlement_nil {got : Bytes} (undecided : verdictOf? got = none) :
    settlement got [] = ⟨.error (.endOfStream got.length), 1⟩ := by
  simp only [settlement, undecided]

lemma settlement_bytes {got : Bytes} (undecided : verdictOf? got = none) (chunk : Bytes)
    (after : List Reply) :
    settlement got (.bytes chunk :: after) = ⟨.error (.endOfStream got.length), 1⟩ := by
  simp only [settlement, undecided]

lemma settlement_failed {got : Bytes} (undecided : verdictOf? got = none) (reason : String)
    (after : List Reply) :
    settlement got (.failed reason :: after) = ⟨.error (.unreadable reason), 1⟩ := by
  simp only [settlement, undecided]

lemma received_nil : received [] = [] := rfl

lemma received_cons (reply : Reply) (replies : List Reply) :
    received (reply :: replies) = reply.chunk ++ received replies := rfl

lemma Heard.of_cons {got : Bytes} {reply : Reply} {before after : List Reply}
    (heard : Heard got (reply :: before) after) : Heard (got ++ reply.chunk) before after := by
  refine ⟨fun r member => heard.goesOn r (by simp [member]), ?_, ?_⟩
  · intro sooner start other
    rw [List.append_assoc]
    exact heard.undecided (reply :: sooner) (by simpa using start) (by simpa using other)
  · rw [List.append_assoc]
    exact heard.settled

lemma Heard.cons {got : Bytes} {reply : Reply} {before after : List Reply}
    (nothing : verdictOf? got = none) (goesOn : reply.goesOn = true)
    (heard : Heard (got ++ reply.chunk) before after) : Heard got (reply :: before) after := by
  refine ⟨?_, ?_, ?_⟩
  · intro r member
    rcases List.mem_cons.mp member with rfl | member
    · exact goesOn
    · exact heard.goesOn r member
  · intro sooner start other
    cases sooner with
    | nil =>
        rw [received, List.flatMap_nil, List.append_nil]
        exact nothing
    | cons r sooner =>
        obtain ⟨rfl, shorter⟩ := List.cons_prefix_cons.mp start
        rw [received_cons, ← List.append_assoc]
        exact heard.undecided sooner shorter (by simpa using other)
  · rw [received_cons, ← List.append_assoc]
    exact heard.settled

lemma Heard.nothing {got : Bytes} {reply : Reply} {before after : List Reply}
    (heard : Heard got (reply :: before) after) : verdictOf? got = none := by
  have nothing := heard.undecided [] List.nil_prefix (by simp)
  rwa [received, List.flatMap_nil, List.append_nil] at nothing

/-- Every script of replies settles a scan somewhere. -/
lemma exists_heard (got : Bytes) (replies : List Reply) :
    ∃ before after, before ++ after = replies ∧ Heard got before after := by
  induction replies generalizing got with
  | nil => exact ⟨[], [], rfl, by simp, by simp, .inr (by simp)⟩
  | cons reply replies ih =>
      cases nothing : verdictOf? got with
      | some verdict =>
          refine ⟨[], reply :: replies, rfl, by simp, by simp, .inl ⟨verdict, ?_⟩⟩
          rw [received, List.flatMap_nil, List.append_nil]
          exact nothing
      | none =>
          cases goesOn : reply.goesOn with
          | false => exact ⟨[], reply :: replies, rfl, by simp, by simp, .inr (by simp [goesOn])⟩
          | true =>
              obtain ⟨before, after, rfl, heard⟩ := ih (got ++ reply.chunk)
              exact ⟨reply :: before, after, rfl, heard.cons nothing goesOn⟩

namespace Scan

variable {options : ScanOptions} {scan : Scan} {stream : Bytes}

/-- A scan that has heard enough ends with the next reply at the latest. -/
lemma run_of_settled (follows : scan.feed.Follows stream)
    (read : scan.bytesRead = stream.length) (unlimited : options.maxBytes = none)
    {after : List Reply} (heard : Heard stream [] after) :
    (scan.run options after).verdict = (settlement stream after).verdict ∧
      (scan.run options after).requests = scan.requests + (settlement stream after).requests ∧
      (scan.run options after).bytesRead = stream.length := by
  obtain ⟨verdict, requests, bytesRead, -⟩ := turn_of_follows follows unlimited
  have settled := heard.settled
  rw [received_nil, List.append_nil] at settled
  rw [read] at bytesRead
  cases decided : verdictOf? stream with
  | some settles =>
      rw [decided] at verdict
      rw [run_of_verdict verdict after, settlement_of_verdict decided]
      exact ⟨rfl, requests, bytesRead⟩
  | none =>
      rw [decided] at verdict settled
      have stops := settled.resolve_left (by simp)
      rcases after with - | ⟨⟨- | ⟨b, rest⟩⟩ | - | reason, after⟩
      · obtain ⟨ends, requests', bytesRead'⟩ := run_nil_of_undecided verdict
        rw [bytesRead] at ends bytesRead'
        rw [requests] at requests'
        rw [settlement_nil decided]
        exact ⟨ends, requests', bytesRead'⟩
      · rw [run_cons_of_refused verdict rfl after, settlement_bytes decided]
        exact ⟨congrArg (fun n => Verdict.error (.endOfStream n)) bytesRead,
          congrArg (· + 1) requests, bytesRead⟩
      · simp [Reply.goesOn] at stops
      · simp [Reply.goesOn] at stops
      · rw [run_cons_of_refused verdict rfl after, settlement_failed decided]
        exact ⟨rfl, congrArg (· + 1) requests, bytesRead⟩

/-- A scan ends as the bytes that it has heard, or the reply after them, settle it.  Induction on
the replies that it hears. -/
theorem run_of_heard (follows : scan.feed.Follows stream) (read : scan.bytesRead = stream.length)
    (unlimited : options.maxBytes = none) {before after : List Reply}
    (heard : Heard stream before after) :
    (scan.run options (before ++ after)).verdict
        = (settlement (stream ++ received before) after).verdict ∧
      (scan.run options (before ++ after)).requests = scan.requests + before.length
        + (settlement (stream ++ received before) after).requests ∧
      (scan.run options (before ++ after)).bytesRead = (stream ++ received before).length := by
  induction before generalizing scan stream with
  | nil =>
      rw [received_nil, List.append_nil]
      exact run_of_settled follows read unlimited heard
  | cons reply before ih =>
      obtain ⟨verdict, requests, bytesRead, onward⟩ := turn_of_follows follows unlimited
      rw [heard.nothing] at verdict
      obtain ⟨next, receives, follows', requests', bytesRead'⟩ :=
        receive_of_goesOn (onward heard.nothing) (heard.goesOn reply (by simp))
      obtain ⟨sameVerdict, sameRequests, sameRead⟩ :=
        run_cons_of_received verdict receives (before ++ after)
      have readNext : next.bytesRead = (stream ++ reply.chunk).length := by
        rw [bytesRead', bytesRead, read, List.length_append]
      obtain ⟨laterVerdict, laterRequests, laterRead⟩ := ih follows' readNext heard.of_cons
      rw [List.append_assoc, ← received_cons] at laterVerdict laterRequests laterRead
      refine ⟨sameVerdict.trans laterVerdict, ?_, sameRead.trans laterRead⟩
      rw [List.cons_append, sameRequests, laterRequests, requests', requests, List.length_cons]
      omega

end Scan

/-! ## Interruptions -/

/-- The replies that answer a request. -/
def answers (replies : List Reply) : List Reply := replies.filter (· ≠ .interrupted)

lemma received_answers (replies : List Reply) :
    received (answers replies) = received replies := by
  induction replies with
  | nil => rfl
  | cons reply replies ih =>
      rw [received_cons, ← ih]
      cases reply <;> rfl

lemma settlement_answers (got : Bytes) {after : List Reply}
    (stops : (∃ verdict, verdictOf? got = some verdict) ∨
      ∀ reply ∈ after.head?, reply.goesOn = false) :
    settlement got (answers after) = settlement got after := by
  cases decided : verdictOf? got with
  | some verdict => rw [settlement_of_verdict decided, settlement_of_verdict decided]
  | none =>
      rw [decided] at stops
      have ends := stops.resolve_left (by simp)
      rcases after with - | ⟨chunk | - | reason, after⟩
      · rfl
      · rw [settlement_bytes decided]
        exact settlement_bytes decided chunk (answers after)
      · simp [Reply.goesOn] at ends
      · rw [settlement_failed decided]
        exact settlement_failed decided reason (answers after)

/-- Leaving out interruptions, a scan hears the same.  Induction on what it hears. -/
lemma Heard.answers {got : Bytes} {before after : List Reply} (heard : Heard got before after) :
    Heard got (answers before) (answers after) := by
  induction before generalizing got with
  | nil =>
      refine ⟨by simp [CueIndex.answers], by simp [CueIndex.answers], ?_⟩
      rcases heard.settled with decided | ends
      · exact .inl decided
      · refine .inr ?_
        rcases after with - | ⟨chunk | - | reason, after⟩
        · simp [CueIndex.answers]
        · simpa [CueIndex.answers] using ends
        · simp [Reply.goesOn] at ends
        · simpa [CueIndex.answers] using ends
  | cons reply before ih =>
      have rest := ih heard.of_cons
      have goesOn := heard.goesOn reply (by simp)
      cases reply with
      | bytes chunk => exact rest.cons heard.nothing goesOn
      | failed reason => exact rest.cons heard.nothing goesOn
      | interrupted =>
          rw [Reply.chunk, List.append_nil] at rest
          exact rest

/-! ## Whole scans -/

lemma ScanOptions.refusal?_eq_none {options : ScanOptions} (asks : 0 < options.chunkSize)
    (fits : options.chunkSize ≤ largestChunk) : options.refusal? = none := by
  rw [refusal?, if_neg asks.ne', if_neg (Nat.not_lt.2 fits)]

lemma ScanOptions.refusal?_eq_panicked {options : ScanOptions}
    (oversized : largestChunk < options.chunkSize) : options.refusal? = some .panicked := by
  rw [refusal?, if_neg (Nat.ne_zero_of_lt oversized), if_pos oversized]

lemma ScanOptions.refusal?_ne_limitReached (options : ScanOptions) (limit : ℕ) :
    options.refusal? ≠ some (.error (.limitReached limit)) := by
  unfold refusal?
  split
  · simp
  · split <;> simp

lemma scan_eq_run {options : ScanOptions} (begun : options.refusal? = none)
    (replies : List Reply) : scan options replies = Scan.run options {} replies := by
  rw [scan, begun]

lemma scan_of_refused {options : ScanOptions} {verdict : Verdict}
    (refused : options.refusal? = some verdict) (replies : List Reply) :
    scan options replies = Scan.conclude {} verdict [] := by
  rw [scan, refused]

lemma Scan.turn_ne_panicked (options : ScanOptions) (scan : Scan) :
    (scan.turn options).verdict ≠ some .panicked := by
  rcases called : scan.feed.step with ⟨fed, session, outcome, events⟩
  cases outcome with
  | complete | unrecognised | resumeBeyondEnd | bytesHidden => simp [turn, called, complete]
  | suspended | signaturePending =>
      cases stalled : fed.session.stalled <;> simp [turn, called, stalled]

lemma Scan.run_ne_panicked (options : ScanOptions) (scan : Scan) (replies : List Reply) :
    (scan.run options replies).verdict ≠ .panicked := by
  fun_induction run options scan replies with
  | case1 replies scan turned verdict decided =>
      rintro rfl
      exact scan.turn_ne_panicked options decided
  | case2 => rintro ⟨⟩
  | case3 => rintro ⟨⟩
  | case4 scan turned reply replies undecided next receives later ih => exact ih

/-- **A scan panics for want of a buffer alone**, whatever its source replies. -/
theorem scan_panicked_iff (options : ScanOptions) (replies : List Reply) :
    (scan options replies).verdict = .panicked
      ↔ ScanOptions.largestChunk < options.chunkSize := by
  rcases Nat.lt_or_ge ScanOptions.largestChunk options.chunkSize with oversized | fits
  · rw [scan_of_refused (ScanOptions.refusal?_eq_panicked oversized)]
    exact iff_of_true rfl oversized
  · refine iff_of_false ?_ (Nat.not_lt.2 fits)
    rcases Nat.eq_zero_or_pos options.chunkSize with zero | asks
    · have refused : options.refusal? = some (.error .zeroChunkSize) := if_pos zero
      rw [scan_of_refused refused]
      rintro ⟨⟩
    · rw [scan_eq_run (ScanOptions.refusal?_eq_none asks fits)]
      exact Scan.run_ne_panicked options {} replies

/-- **A scan's verdict depends on the bytes alone, and comes as early as it can.**  Every script of
replies divides into those that the scan hears, up to the first that brings enough bytes to decide
or the last before the stream ends, and the rest; the scan ends as these bytes, or the reply after
them, settle it, and makes no request after that.  Interruptions change neither its verdict nor what
it reads.  All this holds as far as there can be a buffer for a request. -/
theorem scan_verdict (options : ScanOptions) (asks : 0 < options.chunkSize)
    (fits : options.chunkSize ≤ ScanOptions.largestChunk) (unlimited : options.maxBytes = none)
    (replies : List Reply) :
    (∃ before after, before ++ after = replies ∧ Heard [] before after) ∧
    (∀ before after, before ++ after = replies → Heard [] before after →
      (scan options replies).verdict = (settlement (received before) after).verdict ∧
      (scan options replies).requests
        = before.length + (settlement (received before) after).requests ∧
      (scan options replies).bytesRead = (received before).length) ∧
    (scan options (answers replies)).verdict = (scan options replies).verdict ∧
    (scan options (answers replies)).bytesRead = (scan options replies).bytesRead ∧
    ScanError.unrecognised.message = "Index error: input is not an EBML/Matroska stream" ∧
    (∀ consumed, (ScanError.malformedHeader consumed).message
      = "Index error: " ++ s!"malformed element header after {consumed} consumed bytes") ∧
    (∀ bytesRead, (ScanError.endOfStream bytesRead).message = "Stream error: "
      ++ s!"input ended after {bytesRead} bytes before the first cluster or end of cues") ∧
    (∀ reason, (ScanError.unreadable reason).message = "I/O error: " ++ reason) := by
  have ends : ∀ {before after : List Reply}, Heard [] before after →
      (scan options (before ++ after)).verdict = (settlement (received before) after).verdict ∧
      (scan options (before ++ after)).requests
        = before.length + (settlement (received before) after).requests ∧
      (scan options (before ++ after)).bytesRead = (received before).length := by
    intro before after heard
    rw [scan_eq_run (ScanOptions.refusal?_eq_none asks fits)]
    have start : ({} : Scan).feed.Follows [] := Feed.follows_start
    have ended := Scan.run_of_heard start rfl unlimited heard
    rw [List.nil_append, Nat.zero_add] at ended
    exact ended
  refine ⟨exists_heard [] replies, ?_, ?_⟩
  · rintro before after rfl heard
    exact ends heard
  · obtain ⟨before, after, rfl, heard⟩ := exists_heard [] replies
    obtain ⟨verdict, -, bytesRead⟩ := ends heard
    obtain ⟨verdict', -, bytesRead'⟩ := ends heard.answers
    have split : answers (before ++ after) = answers before ++ answers after :=
      List.filter_append ..
    rw [split, verdict, verdict', bytesRead, bytesRead', received_answers,
      settlement_answers (received before) heard.settled]
    exact ⟨rfl, rfl, rfl, fun _ => rfl, fun _ => rfl, fun _ => rfl⟩

/-- A signature that comes in two pieces, around an interruption, and is not the expected one. -/
theorem scan_verdict_unrecognised :
    (scan { chunkSize := 2 }
        [.bytes [0x1A, 0x45], .interrupted, .bytes [0xDF, 0x00], .bytes [0x00]]).verdict
      = .error .unrecognised ∧
    (scan { chunkSize := 2 }
        [.bytes [0x1A, 0x45], .interrupted, .bytes [0xDF, 0x00], .bytes [0x00]]).requests = 3 := by
  have decided : verdictOf? (received [.bytes [0x1A, 0x45], .interrupted, .bytes [0xDF, 0x00]])
      = some (.error .unrecognised) := rfl
  have heard : Heard [] [.bytes [0x1A, 0x45], .interrupted, .bytes [0xDF, 0x00]]
      [.bytes [0x00]] := by
    refine .cons rfl rfl (.cons rfl rfl (.cons rfl rfl ?_))
    exact ⟨by simp, by simp, .inl ⟨_, decided⟩⟩
  obtain ⟨-, ends, -⟩ := scan_verdict { chunkSize := 2 } (by decide) (by decide) rfl
    [.bytes [0x1A, 0x45], .interrupted, .bytes [0xDF, 0x00], .bytes [0x00]]
  obtain ⟨verdict, requests, -⟩ := ends _ _ rfl heard
  rw [settlement_of_verdict decided] at verdict requests
  exact ⟨verdict, requests⟩

/-- Beyond the largest request this fails: a source that ends at once would settle the scan with its
first reply, which is never asked for. -/
theorem scan_oversized :
    let options : ScanOptions := { chunkSize := 0x8000000000000000 }
    let replies : List Reply := [.bytes []]
    0 < options.chunkSize ∧ options.maxBytes = none ∧ Heard [] [] replies ∧
      settlement (received []) replies = ⟨.error (.endOfStream 0), 1⟩ ∧
      (scan options replies).verdict = .panicked ∧ (scan options replies).requests = 0 := by
  intro options replies
  have heard : Heard [] [] replies := ⟨by simp, by simp, .inr (by simp [replies, Reply.goesOn])⟩
  have refused : options.refusal? = some .panicked :=
    ScanOptions.refusal?_eq_panicked (by decide)
  rw [scan_of_refused refused]
  exact ⟨by decide, rfl, heard, settlement_bytes rfl [] [], rfl, rfl⟩

end CueIndex
