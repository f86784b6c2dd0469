import Mathlib
import CueIndex.Proofs.Scan.Requests

/-!
# Scans with a limit

A limit on the bytes to read is looked at once for each request, after everything that the bytes
themselves say.  So a scan with a limit does what one without does, request by request, up to one
that it does not make.  That this is so for every script of replies is a matter of two runs side by
side, and of what the one without a limit knows at each of its requests.

* `turn_limited` — between two requests a limit comes last.
* `Runs.read_below` — no request is made at the limit.
* **`Runs.under_limit`** — the two runs side by side.
* `Runs.read_before` — what a scan with no limit has read at a request, and that this does not
  settle it.
* `settlement_of_heard` — a scan that its bytes settle has their verdict.
* **`limit_cuts_short`** — whole scans: a limit gives way to every verdict that the bytes determine,
  and is passed by less than a request.
-/

namespace CueIndex.Scan

variable {options : ScanOptions} {scan here : Scan} {stream : Bytes} {replies : List Reply}
  {asked before after : List Scan} {conclusion : Conclusion} {limit : ℕ}

/-- The options without a limit. -/
def unlimited (options : ScanOptions) : ScanOptions := { options with maxBytes := none }

/-- The options with a limit. -/
def limited (options : ScanOptions) (limit : ℕ) : ScanOptions :=
  { options with maxBytes := some limit }

/-! ## One turn with a limit -/

lemma limit?_limited (options : ScanOptions) (limit : ℕ) (scan : Scan) :
    scan.limit? (limited options limit) = if limit ≤ scan.bytesRead then some limit else none := by
  simp [limit?, limited, Option.filter]

/-- **Between two requests a limit comes last.**  The scan goes through the same states and reports
the same, and the limit is looked at where the bytes do not settle it. -/
theorem turn_limited (options : ScanOptions) (limit : ℕ) (scan : Scan) :
    let free := scan.turn (unlimited options)
    let bounded := scan.turn (limited options limit)
    bounded.scan = free.scan ∧ bounded.events = free.events ∧
      bounded.verdict = free.verdict.or
        ((free.scan.limit? (limited options limit)).map
          fun limit => .error (.limitReached limit)) := by
  intro free bounded
  rcases scan.settles_or_waiting with ⟨settled, settles⟩ | waiting
  · obtain ⟨verdict, decided, -⟩ := settles.decided
    have same : bounded = free := (settles.turn_eq _).trans (settles.turn_eq _).symm
    have decided : free.verdict = some verdict := by rw [← decided, ← settles.turn_eq]
    rw [same, decided]
    exact ⟨rfl, rfl, rfl⟩
  · have free_eq : free = scan.held (unlimited options) := waiting.turn_eq _
    have bounded_eq : bounded = scan.held (limited options limit) := waiting.turn_eq _
    rw [free_eq, bounded_eq]
    exact ⟨rfl, rfl, rfl⟩

/-- Below its limit, and where the bytes settle it, a scan turns as one without. -/
lemma turn_limited_of_free
    (free : (scan.turn (unlimited options)).verdict ≠ none ∨
      (scan.turn (unlimited options)).scan.bytesRead < limit) :
    scan.turn (limited options limit) = scan.turn (unlimited options) := by
  obtain ⟨same, events, verdict⟩ := turn_limited options limit scan
  have verdict : (scan.turn (limited options limit)).verdict
      = (scan.turn (unlimited options)).verdict := by
    rw [verdict, limit?_limited]
    rcases free with decided | few
    · obtain ⟨settles, decided⟩ := Option.ne_none_iff_exists'.1 decided
      rw [decided, Option.some_or]
    · rw [if_neg (Nat.not_le.2 few), Option.map_none, Option.or_none]
  calc scan.turn (limited options limit)
      = ⟨(scan.turn (limited options limit)).scan, (scan.turn (limited options limit)).verdict,
          (scan.turn (limited options limit)).events⟩ := rfl
    _ = scan.turn (unlimited options) := by rw [same, events, verdict]

/-- At its limit a scan gives up that would have made a request. -/
lemma runs_of_reached (undecided : (scan.turn (unlimited options)).verdict = none)
    (reached : limit ≤ (scan.turn (unlimited options)).scan.bytesRead) (replies : List Reply) :
    Runs (limited options limit) scan replies []
      ((scan.turn (unlimited options)).scan.conclude (.error (.limitReached limit))
        (scan.turn (unlimited options)).events) := by
  obtain ⟨same, events, verdict⟩ := turn_limited options limit scan
  rw [undecided, Option.none_or, limit?_limited, if_pos reached] at verdict
  rw [← same, ← events]
  exact .settled replies verdict

/-- At its limit a scan makes no request. -/
lemma bytesRead_lt_of_undecided (undecided : (scan.turn (limited options limit)).verdict = none) :
    (scan.turn (limited options limit)).scan.bytesRead < limit := by
  obtain ⟨same, -, verdict⟩ := turn_limited options limit scan
  have unlimited := (Option.or_eq_none_iff.1 (verdict.symm.trans undecided)).2
  rw [Option.map_eq_none_iff, limit?_limited] at unlimited
  rw [same]
  by_contra reached
  rw [if_pos (Nat.le_of_not_lt reached)] at unlimited
  cases unlimited

/-- Without a limit none is reached. -/
lemma turn_ne_limitReached (options : ScanOptions) (limit : ℕ) (scan : Scan) :
    (scan.turn (unlimited options)).verdict ≠ some (.error (.limitReached limit)) := by
  rcases scan.settles_or_waiting with ⟨settled, settles⟩ | waiting
  · obtain ⟨verdict, decided, other⟩ := settles.decided
    rw [settles.turn_eq, decided]
    rintro ⟨⟩
    exact other limit rfl
  · rw [waiting.turn_eq]
    rintro ⟨⟩

/-! ## Two runs side by side -/

/-- **No request is made at the limit.** -/
theorem Runs.read_below (runs : Runs (limited options limit) scan replies asked conclusion) :
    ∀ asking ∈ asked, asking.bytesRead < limit := by
  induction runs with
  | settled replies decided => simp
  | exhausted undecided => simpa using bytesRead_lt_of_undecided undecided
  | refused replies undecided receives => simpa using bytesRead_lt_of_undecided undecided
  | answered undecided receives onward ih =>
      exact List.forall_mem_cons.2 ⟨bytesRead_lt_of_undecided undecided, ih⟩

/-- **A run with a limit is one without, or its beginning.**  Either they are the same, or the one
without a limit makes a request with as many bytes read, and the other gives up in its place.
Induction on the run without a limit. -/
theorem Runs.under_limit (runs : Runs (unlimited options) scan replies asked conclusion)
    (limit : ℕ) :
    Runs (limited options limit) scan replies asked conclusion ∨
      ∃ before here after events, asked = before ++ here :: after ∧ limit ≤ here.bytesRead ∧
        events <+: conclusion.events ∧
        Runs (limited options limit) scan replies before
          (here.conclude (.error (.limitReached limit)) events) := by
  induction runs with
  | @settled scan verdict replies decided =>
      have same : scan.turn (limited options limit) = scan.turn (unlimited options) :=
        turn_limited_of_free (Or.inl (by simp [decided]))
      rw [← same] at decided ⊢
      exact Or.inl (.settled replies decided)
  | @exhausted scan undecided =>
      by_cases few : (scan.turn (unlimited options)).scan.bytesRead < limit
      · have same := turn_limited_of_free (Or.inr few)
        rw [← same] at undecided ⊢
        exact Or.inl (.exhausted undecided)
      · have reached := Nat.le_of_not_lt few
        exact Or.inr ⟨[], _, [], _, rfl, reached, List.prefix_refl _,
          runs_of_reached undecided reached []⟩
  | @refused scan ended reply error replies undecided receives =>
      by_cases few : (scan.turn (unlimited options)).scan.bytesRead < limit
      · have same := turn_limited_of_free (Or.inr few)
        rw [← same] at undecided receives ⊢
        exact Or.inl (.refused replies undecided receives)
      · have reached := Nat.le_of_not_lt few
        exact Or.inr ⟨[], _, [], _, rfl, reached, List.prefix_refl _,
          runs_of_reached undecided reached _⟩
  | @answered scan next reply replies later conclusion undecided receives onward ih =>
      by_cases few : (scan.turn (unlimited options)).scan.bytesRead < limit
      · have same := turn_limited_of_free (Or.inr few)
        rw [← same] at undecided receives ⊢
        rcases ih with runs | ⟨before, here, after, events, rfl, reached, starts, runs⟩
        · exact Or.inl (.answered undecided receives runs)
        · refine Or.inr ⟨_ :: before, here, after, _, rfl, reached, ?_,
            .answered undecided receives runs⟩
          exact (List.prefix_append_right_inj _).2 starts
      · have reached := Nat.le_of_not_lt few
        exact Or.inr ⟨[], _, later, _, rfl, reached, List.prefix_append _ _,
          runs_of_reached undecided reached _⟩

/-- A run without a limit does not end with one. -/
lemma Runs.ne_limitReached (runs : Runs (unlimited options) scan replies asked conclusion)
    (limit : ℕ) : conclusion.verdict ≠ .error (.limitReached limit) := by
  induction runs with
  | @settled scan verdict replies decided =>
      rintro rfl
      exact turn_ne_limitReached options limit scan decided
  | exhausted undecided => rintro ⟨⟩
  | @refused scan ended reply error replies undecided receives =>
      rintro ⟨⟩
      rcases reply with (- | ⟨b, rest⟩) | - | reason <;> cases receives
  | answered undecided receives onward ih => exact ih

/-! ## What is known at a request -/

/-- What a scan without a limit has read at its next request, and that this does not settle it. -/
lemma read_at_next (follows : scan.feed.Follows stream) (read : scan.bytesRead = stream.length)
    (undecided : (scan.turn (unlimited options)).verdict = none) (replies : List Reply) :
    (scan.turn (unlimited options)).scan.bytesRead
        = (stream ++ received (replies.take 0)).length ∧
      verdictOf? (stream ++ received (replies.take 0)) = none := by
  have free : (unlimited options).maxBytes = none := rfl
  obtain ⟨verdict, -, bytesRead, -⟩ := turn_of_follows follows free
  rw [List.take_zero, received_nil, List.append_nil]
  exact ⟨bytesRead.trans read, verdict.symm.trans undecided⟩

/-- **What a scan without a limit has read at a request**: what the replies to those before it have
brought, which does not settle it.  Induction on the run. -/
theorem Runs.read_before (runs : Runs (unlimited options) scan replies asked conclusion)
    (follows : scan.feed.Follows stream) (read : scan.bytesRead = stream.length)
    (split : asked = before ++ here :: after) :
    here.bytesRead = (stream ++ received (replies.take before.length)).length ∧
      verdictOf? (stream ++ received (replies.take before.length)) = none := by
  induction runs generalizing stream before with
  | settled replies decided => simp at split
  | exhausted undecided =>
      obtain ⟨rfl, rfl, -⟩ : before = [] ∧ here = _ ∧ after = [] := by
        simpa [List.singleton_eq_append_iff] using split
      exact read_at_next follows read undecided _
  | refused replies undecided receives =>
      obtain ⟨rfl, rfl, -⟩ : before = [] ∧ here = _ ∧ after = [] := by
        simpa [List.singleton_eq_append_iff] using split
      exact read_at_next follows read undecided _
  | @answered scan next reply replies later conclusion undecided receives onward ih =>
      cases before with
      | nil =>
          obtain ⟨rfl, -⟩ := List.cons.inj split
          exact read_at_next follows read undecided _
      | cons asking before =>
          obtain ⟨rfl, beyond⟩ := List.cons.inj split
          have counts := (counts_turn (unlimited options) scan).2
          have bytesRead := (receive_eq_none receives).2.2
          have readNext : next.bytesRead = (stream ++ reply.chunk).length := by
            rw [bytesRead, counts, read, List.length_append]
          obtain ⟨total, nothing⟩ :=
            ih (follows_receive (follows_turn follows undecided) receives) readNext beyond
          rw [List.append_assoc, ← received_cons] at total nothing
          exact ⟨total, nothing⟩

/-- **A limit is passed by less than a request** where it was not reached at the request before. -/
theorem Runs.bytesRead_lt (runs : Runs (unlimited options) {} replies asked conclusion)
    (asks : 0 < options.chunkSize) (split : asked = before ++ here :: after)
    (below : ∀ asking ∈ before, asking.bytesRead < limit)
    (fits : ∀ reply ∈ replies, reply.chunk.length ≤ options.chunkSize) :
    here.bytesRead < limit + options.chunkSize := by
  rw [(runs.read_before Feed.follows_start rfl split).1, List.nil_append]
  rcases before.eq_nil_or_concat with rfl | ⟨sooner, last, rfl⟩
  · rw [List.length_nil, List.take_zero, received_nil, List.length_nil]
    omega
  · rw [List.concat_append] at split
    have few := below last (by simp)
    rw [(runs.read_before Feed.follows_start rfl split).1, List.nil_append] at few
    have one : (received replies[sooner.length]?.toList).length ≤ options.chunkSize := by
      cases next : replies[sooner.length]? with
      | none => exact Nat.zero_le _
      | some reply =>
          rw [Option.toList_some, received_cons, received_nil, List.append_nil]
          exact fits reply (List.mem_of_getElem? next)
    rw [List.length_concat, List.take_add_one, received, List.flatMap_append, List.length_append]
    exact Nat.add_lt_add_of_lt_of_le few one

/-! ## Bytes that settle a scan -/

/-- Where the bytes of all replies to its requests settle a scan, it ends as they do. -/
lemma settlement_of_heard {before after : List Reply} (heard : Heard [] before after)
    {verdict : Verdict}
    (settles : verdictOf? (received ((before ++ after).take
      (before.length + (settlement (received before) after).requests))) = some verdict) :
    (settlement (received before) after).verdict = verdict := by
  cases decided : verdictOf? (received before) with
  | some found =>
      rw [settlement_of_verdict decided, Nat.add_zero, List.take_left, decided] at settles
      rw [settlement_of_verdict decided]
      exact Option.some.inj settles
  | none =>
      -- the reply that ends the stream brings nothing, so the bytes say no more than before it
      have ends : received (after.take 1) = [] := by
        have stops := heard.settled
        rw [List.nil_append, decided] at stops
        replace stops := stops.resolve_left (by simp)
        rcases after with - | ⟨⟨- | ⟨b, rest⟩⟩ | - | reason, after⟩
        case cons.bytes.cons | cons.interrupted => simp [Reply.goesOn] at stops
        all_goals rfl
      have once : (settlement (received before) after).requests = 1 := by
        simp only [settlement, decided]
        split <;> simp_all
      rw [once, List.take_length_add_append, received, List.flatMap_append] at settles
      rw [received] at ends decided
      rw [ends, List.append_nil, decided] at settles
      cases settles

/-- **A scan without a limit that its bytes settle has their verdict.** -/
theorem verdict_of_settles (begun : (unlimited options).refusal? = none) {verdict : Verdict}
    (settles : verdictOf? (received
      (replies.take (CueIndex.scan (unlimited options) replies).requests)) = some verdict) :
    (CueIndex.scan (unlimited options) replies).verdict = verdict := by
  obtain ⟨before, after, rfl, heard⟩ := exists_heard [] replies
  have start : ({} : Scan).feed.Follows [] := Feed.follows_start
  have free : (unlimited options).maxBytes = none := rfl
  obtain ⟨ended, requests, -⟩ := run_of_heard start rfl free heard
  rw [← scan_eq_run begun, List.nil_append] at ended requests
  rw [show ({} : Scan).requests = 0 from rfl, Nat.zero_add] at requests
  rw [requests] at settles
  rw [ended]
  exact settlement_of_heard heard settles

/-! ## Whole scans -/

lemma below_atRequests (options : ScanOptions) (limit : ℕ) (replies : List Reply) :
    ∀ scan ∈ atRequests (limited options limit) replies, scan.bytesRead < limit := by
  cases begun : (limited options limit).refusal? with
  | some verdict =>
      rw [atRequests_of_refused begun]
      simp
  | none => exact (runs_scan begun replies).read_below

/-- With a limit of no bytes no request is made. -/
lemma requests_limited_zero (options : ScanOptions) (replies : List Reply) :
    (CueIndex.scan (limited options 0) replies).requests = 0 := by
  have below := below_atRequests options 0 replies
  rw [← length_atRequests, List.length_eq_zero_iff, List.eq_nil_iff_forall_not_mem]
  exact fun scan member => Nat.not_lt_zero _ (below scan member)

/-- **A limit only ever cuts a scan short, and less than a request behind it.**  Compare two scans
of one source, one with a limit and one without.  Either they are the same, and the limit has not
been reached at any request, or the one with the limit gives up in place of the first request that
the other makes at the limit or behind it.  A verdict that the bytes received so far determine is
never given up for the limit, and with a limit of no bytes no request is made. -/
theorem limit_cuts_short (options : ScanOptions) (asks : 0 < options.chunkSize) (limit : ℕ)
    (replies : List Reply) :
    let whole := CueIndex.scan (unlimited options) replies
    let cut := CueIndex.scan (limited options limit) replies
    let asked := atRequests (unlimited options) replies
    ((cut = whole ∧ atRequests (limited options limit) replies = asked ∧
          (∀ scan ∈ asked, scan.bytesRead < limit) ∧
          cut.verdict ≠ .error (.limitReached limit)) ∨
      ∃ before here after, asked = before ++ here :: after ∧
        atRequests (limited options limit) replies = before ∧
        (∀ scan ∈ before, scan.bytesRead < limit) ∧
        cut.verdict = .error (.limitReached limit) ∧
        cut.requests = before.length ∧ whole.requests = asked.length ∧
        cut.bytesRead = (received (replies.take cut.requests)).length ∧
        cut.events <+: whole.events ∧
        limit ≤ cut.bytesRead ∧
        ((∀ reply ∈ replies, reply.chunk.length ≤ options.chunkSize) →
          cut.bytesRead < limit + options.chunkSize)) ∧
    (∀ verdict, verdictOf? (received (replies.take cut.requests)) = some verdict →
      cut.verdict = verdict) ∧
    (limit = 0 → cut.requests = 0) ∧
    (ScanError.limitReached limit).message
      = "Stream error: " ++ s!"no cluster or end of cues within the first {limit} bytes" := by
  intro whole cut asked
  have noRequest : limit = 0 → cut.requests = 0 := by
    rintro rfl
    exact requests_limited_zero options replies
  have below := below_atRequests options limit replies
  cases begun : options.refusal? with
  | some verdict =>
      have begunWhole : (unlimited options).refusal? = some verdict := begun
      have begunCut : (limited options limit).refusal? = some verdict := begun
      have whole_eq : whole = conclude {} verdict [] := scan_of_refused begunWhole replies
      have cut_eq : cut = conclude {} verdict [] := scan_of_refused begunCut replies
      have asked_eq : asked = [] := atRequests_of_refused begunWhole replies
      have other : verdict ≠ .error (.limitReached limit) := by
        rintro rfl
        exact options.refusal?_ne_limitReached limit begun
      rw [whole_eq, cut_eq, asked_eq, atRequests_of_refused begunCut]
      exact ⟨Or.inl ⟨rfl, rfl, by simp, other⟩, by rintro _ ⟨⟩, fun _ => rfl, rfl⟩
  | none =>
      have begunWhole : (unlimited options).refusal? = none := begun
      have begunCut : (limited options limit).refusal? = none := begun
      have runs : Runs (unlimited options) {} replies asked whole := runs_scan begunWhole replies
      have runsCut := runs_scan begunCut replies
      rcases runs.under_limit limit with
        same | ⟨before, here, after, events, split, reached, starts, ends⟩
      · obtain ⟨asked_eq, ended⟩ := runsCut.unique same
        have cut_eq : cut = whole := ended
        rw [asked_eq] at below
        refine ⟨Or.inl ⟨cut_eq, asked_eq, below, ?_⟩, ?_, noRequest, rfl⟩ <;> rw [cut_eq]
        · exact runs.ne_limitReached limit
        · exact fun verdict => verdict_of_settles begunWhole
      · obtain ⟨sooner, ended⟩ := runsCut.unique ends
        have cut_eq : cut = here.conclude (.error (.limitReached limit)) events := ended
        have bytesRead : cut.bytesRead = here.bytesRead := by rw [cut_eq]; rfl
        have requests : cut.requests = before.length := by
          rw [← sooner]
          exact (length_atRequests _ _).symm
        rw [sooner] at below
        obtain ⟨total, nothing⟩ := runs.read_before Feed.follows_start rfl split
        rw [List.nil_append, ← requests] at total nothing
        refine ⟨Or.inr ⟨before, here, after, split, sooner, below, ?_, requests,
          (length_atRequests _ _).symm, bytesRead.trans total, ?_, ?_, ?_⟩, ?_, noRequest, rfl⟩
        · rw [cut_eq]
          rfl
        · rwa [cut_eq]
        · rwa [bytesRead]
        · intro fits
          rw [bytesRead]
          exact runs.bytesRead_lt asks split below fits
        · intro verdict settles
          rw [nothing] at settles
          cases settles

/-- A signature element, the header of a segment and one of a cluster, in pieces of five bytes. -/
def clusterAhead : List Reply :=
  [.bytes [0x1A, 0x45, 0xDF, 0xA3, 0x80], .interrupted, .bytes [0x18, 0x53, 0x80, 0x67, 0xFF],
    .bytes [0x1F, 0x43, 0xB6, 0x75, 0xFF], .bytes [0x00, 0x00, 0x00, 0x00, 0x00]]

/-- With a limit of nine bytes a scan gives up in place of its fourth request, after ten.  With one
of fifteen, which are read by then, it has the index. -/
theorem limit_cuts_short_clusterAhead :
    let options : ScanOptions := { chunkSize := 5 }
    let cut := CueIndex.scan (limited options 9) clusterAhead
    let enough := CueIndex.scan (limited options 15) clusterAhead
    (cut.verdict = .error (.limitReached 9) ∧ cut.requests = 3 ∧
        9 ≤ cut.bytesRead ∧ cut.bytesRead < 9 + 5 ∧
        cut.requests < (CueIndex.scan (unlimited options) clusterAhead).requests) ∧
      enough.verdict = .ok { segmentOffset := 5, segmentDataOffset := 10 } ∧
      enough.bytesRead = 15 := by
  intro options cut enough
  have fits : ∀ reply ∈ clusterAhead, reply.chunk.length ≤ options.chunkSize := by decide
  have gaveUp : ¬ ∀ scan ∈ atRequests (unlimited options) clusterAhead, scan.bytesRead < 9 := by
    decide +kernel
  have settles : verdictOf? (received (clusterAhead.take enough.requests))
      = some (.ok { segmentOffset := 5, segmentDataOffset := 10 }) := by decide +kernel
  obtain ⟨runs, -⟩ := limit_cuts_short options (by decide) 9 clusterAhead
  obtain ⟨-, verdict, -⟩ := limit_cuts_short options (by decide) 15 clusterAhead
  obtain ⟨before, here, after, split, -, -, limitReached, requests, all, -, -, reached, passed⟩ :=
    runs.resolve_left fun same => gaveUp same.2.2.1
  have three : cut.requests = 3 := by decide +kernel
  have more : cut.requests < (CueIndex.scan (unlimited options) clusterAhead).requests := by
    rw [requests, all, split, List.length_append, List.length_cons]
    omega
  exact ⟨⟨limitReached, three, reached, passed fits, more⟩, verdict _ settles,
    by decide +kernel⟩

end CueIndex.Scan
