import Mathlib
import CueIndex.SeekIndex.Basic

/-!
# The cue for a moment

Cues need not be in order of time, times may be equal, and a moment in nanoseconds is compared with
products that may not fit in 64 bits.  What is chosen is said here by places in the list of cues, so
that it is settled which of several cues of one time it is.

* `IsLatest`, `IsEarliest` — the last of the greatest among the cues that are reached, and the first
  of the least among all.  `latestCue?_filter_eq_some_iff` and `earliestCue?_eq_some_iff` say that
  these are what the two selections find.
* `IsChosen` — the one or, where no cue is reached, the other.
* `ticksTime_le_iff` — below the largest number saturation does not show.
* **`find?_choice`** — what is found for a moment, that saturation does not change it, and that it
  is no earlier for a later moment.
-/

namespace CueIndex

variable {cues rest : List CuePoint} {first cue other next : CuePoint} {p : CuePoint → Prop}

/-- A place in a list is the first one, or one in the rest. -/
lemma exists_split_cons {front behind : CuePoint → Prop} :
    (∃ before after, first :: rest = before ++ cue :: after ∧ (∀ other ∈ before, front other) ∧
        ∀ other ∈ after, behind other) ↔
      (cue = first ∧ ∀ other ∈ rest, behind other) ∨
        (front first ∧ ∃ before after, rest = before ++ cue :: after ∧
          (∀ other ∈ before, front other) ∧ ∀ other ∈ after, behind other) := by
  constructor
  · rintro ⟨before, after, split, fronts, behinds⟩
    cases before with
    | nil =>
        cases split
        exact Or.inl ⟨rfl, behinds⟩
    | cons head before =>
        cases split
        obtain ⟨here, fronts⟩ := List.forall_mem_cons.1 fronts
        exact Or.inr ⟨here, before, after, rfl, fronts, behinds⟩
  · rintro (⟨rfl, behinds⟩ | ⟨here, before, after, rfl, fronts, behinds⟩)
    · exact ⟨[], rest, rfl, by simp, behinds⟩
    · exact ⟨first :: before, after, rfl, List.forall_mem_cons.2 ⟨here, fronts⟩, behinds⟩

/-! ## The latest of the cues that are reached -/

/-- **The latest of the cues that are reached**, by its place: no cue that is reached has a greater
time, and none behind it has the same. -/
def IsLatest (reached : CuePoint → Prop) (cues : List CuePoint) (cue : CuePoint) : Prop :=
  ∃ before after, cues = before ++ cue :: after ∧ reached cue ∧
    (∀ other ∈ before, reached other → other.time ≤ cue.time) ∧
    ∀ other ∈ after, reached other → other.time < cue.time

lemma IsLatest.mem (latest : IsLatest p cues cue) : cue ∈ cues := by
  obtain ⟨before, after, rfl, -⟩ := latest
  simp

lemma IsLatest.reached (latest : IsLatest p cues cue) : p cue := by
  obtain ⟨before, after, -, here, -⟩ := latest
  exact here

lemma IsLatest.time_le (latest : IsLatest p cues cue) (among : other ∈ cues) (here : p other) :
    other.time ≤ cue.time := by
  obtain ⟨before, after, rfl, -, front, behind⟩ := latest
  rcases List.mem_append.1 among with among | among
  · exact front other among here
  · rcases List.mem_cons.1 among with rfl | among
    · exact UInt64.le_refl _
    · exact UInt64.le_of_lt (behind other among here)

/-- Whether a cue is reached does not depend on its place. -/
lemma isLatest_iff : IsLatest p cues cue ↔ p cue ∧ ∃ before after, cues = before ++ cue :: after ∧
    (∀ other ∈ before, p other → other.time ≤ cue.time) ∧
    ∀ other ∈ after, p other → other.time < cue.time := by
  constructor
  · rintro ⟨before, after, split, here, order⟩
    exact ⟨here, before, after, split, order⟩
  · rintro ⟨here, before, after, split, order⟩
    exact ⟨before, after, split, here, order⟩

/-- The latest cue is the first one, if all reached ones behind it are earlier, and otherwise the
latest of those behind it. -/
lemma isLatest_cons : IsLatest p (first :: rest) cue ↔
    (cue = first ∧ p first ∧ ∀ other ∈ rest, p other → other.time < first.time) ∨
      (IsLatest p rest cue ∧ (p first → first.time ≤ cue.time)) := by
  rw [isLatest_iff, exists_split_cons, isLatest_iff]
  constructor
  · rintro ⟨here, ⟨rfl, behind⟩ | ⟨least, later⟩⟩
    · exact Or.inl ⟨rfl, here, behind⟩
    · exact Or.inr ⟨⟨here, later⟩, least⟩
  · rintro (⟨rfl, here, behind⟩ | ⟨⟨here, later⟩, least⟩)
    · exact ⟨here, Or.inl ⟨rfl, behind⟩⟩
    · exact ⟨here, Or.inr ⟨least, later⟩⟩

/-- **The latest of the cues that pass a test.** -/
theorem latestCue?_filter_eq_some_iff {passes : CuePoint → Bool} :
    latestCue? (cues.filter passes) = some cue ↔ IsLatest (passes · = true) cues cue := by
  induction cues generalizing cue with
  | nil => simp [latestCue?, IsLatest]
  | cons first rest ih =>
      rw [isLatest_cons, ← ih]
      by_cases here : passes first = true
      · rw [List.filter_cons_of_pos here, latestCue?]
        cases found : latestCue? (rest.filter passes) with
        | none =>
            have nothing := List.filter_eq_nil_iff.1 (latestCue?_eq_none_iff.1 found)
            constructor
            · rintro ⟨⟩
              exact Or.inl
                ⟨rfl, here, fun other among passed => absurd passed (nothing other among)⟩
            · rintro (⟨rfl, -, -⟩ | ⟨⟨⟩, -⟩)
              rfl
        | some later =>
            have latest := ih.1 found
            dsimp only
            split
            · next earlier =>
              constructor
              · rintro ⟨⟩
                refine Or.inl ⟨rfl, here, fun other among passed => ?_⟩
                exact UInt64.lt_of_le_of_lt (latest.time_le among passed) earlier
              · rintro (⟨rfl, -, -⟩ | ⟨⟨⟩, least⟩)
                · rfl
                · exact absurd earlier (UInt64.not_lt.2 (least here))
            · next notEarlier =>
              constructor
              · rintro ⟨⟩
                exact Or.inr ⟨rfl, fun _ => UInt64.not_lt.1 notEarlier⟩
              · rintro (⟨rfl, -, behind⟩ | ⟨same, -⟩)
                · exact absurd (behind later latest.mem latest.reached) notEarlier
                · exact same
      · rw [List.filter_cons_of_neg here]
        simp [here]

/-! ## The earliest of all cues -/

/-- **The earliest of the cues**, by its place: no cue has a smaller time, and none in front of it
has the same. -/
def IsEarliest (cues : List CuePoint) (cue : CuePoint) : Prop :=
  ∃ before after, cues = before ++ cue :: after ∧
    (∀ other ∈ before, cue.time < other.time) ∧ ∀ other ∈ after, cue.time ≤ other.time

lemma IsEarliest.mem (earliest : IsEarliest cues cue) : cue ∈ cues := by
  obtain ⟨before, after, rfl, -⟩ := earliest
  simp

lemma IsEarliest.le_time (earliest : IsEarliest cues cue) (among : other ∈ cues) :
    cue.time ≤ other.time := by
  obtain ⟨before, after, rfl, front, behind⟩ := earliest
  rcases List.mem_append.1 among with among | among
  · exact UInt64.le_of_lt (front other among)
  · rcases List.mem_cons.1 among with rfl | among
    · exact UInt64.le_refl _
    · exact behind other among

/-- The earliest cue is the first one, if none behind it is earlier, and otherwise the earliest of
those behind it. -/
lemma isEarliest_cons : IsEarliest (first :: rest) cue ↔
    (cue = first ∧ ∀ other ∈ rest, first.time ≤ other.time) ∨
      (IsEarliest rest cue ∧ cue.time < first.time) := by
  rw [IsEarliest, exists_split_cons, and_comm (a := cue.time < first.time), IsEarliest]
  refine or_congr (and_congr_right ?_) Iff.rfl
  rintro rfl
  exact Iff.rfl

theorem earliestCue?_eq_some_iff : earliestCue? cues = some cue ↔ IsEarliest cues cue := by
  induction cues generalizing cue with
  | nil => simp [earliestCue?, IsEarliest]
  | cons first rest ih =>
      rw [isEarliest_cons, ← ih, earliestCue?]
      cases found : earliestCue? rest with
      | none =>
          rw [earliestCue?_eq_none_iff.1 found]
          simp [eq_comm]
      | some later =>
          have earliest := ih.1 found
          dsimp only
          split
          · next earlier =>
            constructor
            · rintro ⟨⟩
              exact Or.inr ⟨rfl, earlier⟩
            · rintro (⟨rfl, least⟩ | ⟨same, -⟩)
              · exact absurd earlier (UInt64.not_lt.2 (least later earliest.mem))
              · exact same
          · next notEarlier =>
            constructor
            · rintro ⟨⟩
              refine Or.inl ⟨rfl, fun other among => ?_⟩
              exact UInt64.le_trans (UInt64.not_lt.1 notEarlier) (earliest.le_time among)
            · rintro (⟨rfl, -⟩ | ⟨⟨⟩, earlier⟩)
              · rfl
              · exact absurd earlier notEarlier

/-! ## The choice -/

/-- **The cue to start from**: the latest that is reached, and the earliest of all if none is. -/
def IsChosen (reached : CuePoint → Prop) (cues : List CuePoint) (cue : CuePoint) : Prop :=
  IsLatest reached cues cue ∨ (∀ other ∈ cues, ¬ reached other) ∧ IsEarliest cues cue

/-- If more cues are reached, the choice is no earlier. -/
lemma IsChosen.time_le {q : CuePoint → Prop} (weaker : ∀ cue, p cue → q cue)
    (chosen : IsChosen p cues cue) (later : IsChosen q cues next) : cue.time ≤ next.time := by
  rcases chosen with latest | ⟨-, earliest⟩
  · have reached := weaker cue latest.reached
    rcases later with latest' | ⟨nothing, -⟩
    · exact latest'.time_le latest.mem reached
    · exact absurd reached (nothing cue latest.mem)
  · rcases later with latest' | ⟨-, earliest'⟩
    · exact earliest.le_time latest'.mem
    · exact earliest.le_time earliest'.mem

/-- Where some cue is reached, the choice is reached and no cue that is reached is later. -/
lemma IsChosen.time_le_of_reached (chosen : IsChosen p cues cue) (among : other ∈ cues)
    (reached : p other) : p cue ∧ other.time ≤ cue.time := by
  rcases chosen with latest | ⟨nothing, -⟩
  · exact ⟨latest.reached, latest.time_le among reached⟩
  · exact absurd reached (nothing other among)

namespace SeekIndex

variable {index : SeekIndex} {time : ℕ}

/-- More ticks take no less time, though saturation may make the times equal. -/
lemma ticksTime_le_ticksTime {ticks more : UInt64} (le : ticks ≤ more) :
    index.ticksTime ticks ≤ index.ticksTime more :=
  saturate_le_saturate (Nat.mul_le_mul_right _ (UInt64.le_iff_toNat_le.1 le))

/-- **Saturation does not show in a comparison with less than the largest number.** -/
theorem ticksTime_le_iff {ticks : UInt64} (small : time < UInt64.size - 1) :
    index.ticksTime ticks ≤ time ↔ ticks.toNat * index.tick.toNat ≤ time := by
  rw [ticksTime, saturate]
  omega

lemma toNat_tick (index : SeekIndex) : index.tick.toNat
    = if index.timeScale = 0 then 1000000 else index.timeScale.toNat := by
  unfold tick
  split <;> rfl

theorem find?_eq_none_iff : index.find? time = none ↔ index.cues = [] := by
  rw [find?, Option.or_eq_none_iff, earliestCue?_eq_none_iff, latestCue?_eq_none_iff, cuesUpTo]
  constructor
  · exact And.right
  · intro empty
    simp [empty]

theorem find?_eq_some_iff :
    index.find? time = some cue ↔ IsChosen (index.cueTime · ≤ time) index.cues cue := by
  have latest : latestCue? (index.cuesUpTo time) = some cue ↔ IsLatest _ index.cues cue :=
    latestCue?_filter_eq_some_iff
  simp only [decide_eq_true_eq] at latest
  have nothing : latestCue? (index.cuesUpTo time) = none
      ↔ ∀ other ∈ index.cues, ¬ index.cueTime other ≤ time := by
    simp [latestCue?_eq_none_iff, cuesUpTo]
  rw [find?, Option.or_eq_some_iff, IsChosen, latest, nothing, earliestCue?_eq_some_iff]

/-- **The cue for a moment.**  There is none exactly if there are no cues.  If some cue is at or
before the moment, it is the latest of these, the last one of equal times; otherwise it is the
earliest of all, the first one of equal times.  Then no cue at or before the moment has a greater
time, in ticks or in nanoseconds.  For every moment but the largest number the choice is that by
products without a bound, and a later moment is never given an earlier cue. -/
theorem find?_choice (index : SeekIndex) (time : ℕ) :
    let scale := if index.timeScale = 0 then 1000000 else index.timeScale.toNat
    (index.find? time = none ↔ index.cues = []) ∧
    ∀ cue,
      (index.find? time = some cue ↔ IsChosen (index.cueTime · ≤ time) index.cues cue) ∧
      (time < 2 ^ 64 - 1 → (index.find? time = some cue ↔
        IsChosen (fun other => other.time.toNat * scale ≤ time) index.cues cue)) ∧
      (index.find? time = some cue →
        (∀ other ∈ index.cues, index.cueTime other ≤ time →
          index.cueTime cue ≤ time ∧ other.time ≤ cue.time ∧
            index.cueTime other ≤ index.cueTime cue) ∧
        ∀ later next, time ≤ later → index.find? later = some next → cue.time ≤ next.time) := by
  intro scale
  have scale_eq : index.tick.toNat = scale := index.toNat_tick
  refine ⟨find?_eq_none_iff, fun cue => ⟨find?_eq_some_iff, fun small => ?_, fun found => ?_⟩⟩
  · have exact_iff : ∀ other, index.cueTime other ≤ time ↔ other.time.toNat * scale ≤ time := by
      intro other
      rw [← scale_eq]
      exact ticksTime_le_iff small
    simp only [find?_eq_some_iff, exact_iff]
  · have chosen := find?_eq_some_iff.1 found
    constructor
    · intro other among reached
      obtain ⟨here, le⟩ := chosen.time_le_of_reached among reached
      exact ⟨here, le, ticksTime_le_ticksTime le⟩
    · intro later next forward found'
      exact chosen.time_le (fun other reached => Nat.le_trans reached forward)
        (find?_eq_some_iff.1 found')

/-- Cues out of order, two of one time, and one whose time in nanoseconds has more than 64 bits. -/
def unordered : SeekIndex where
  cues := [⟨4000, 1, 30⟩, ⟨2000, 1, 10⟩, ⟨2000, 2, 20⟩, ⟨9223372036854775808, 1, 40⟩]

/-- Three seconds into the stream it is the second of the two equal times.  At the largest number
the last cue counts as reached, although its product is greater. -/
theorem find?_choice_unordered :
    let scale := if unordered.timeScale = 0 then 1000000 else unordered.timeScale.toNat
    let chosen : CuePoint := ⟨2000, 2, 20⟩
    let saturated : CuePoint := ⟨9223372036854775808, 1, 40⟩
    (unordered.find? 3000000000 = some chosen ∧ 3000000000 < 2 ^ 64 - 1 ∧
      IsChosen (fun other => other.time.toNat * scale ≤ 3000000000) unordered.cues chosen) ∧
    (unordered.find? (2 ^ 64 - 1) = some saturated ∧ chosen.time ≤ saturated.time ∧
      ¬ saturated.time.toNat * scale ≤ 2 ^ 64 - 1) := by
  intro scale chosen saturated
  obtain ⟨-, choice⟩ := find?_choice unordered 3000000000
  obtain ⟨-, exact_iff, order⟩ := choice chosen
  have found : unordered.find? 3000000000 = some chosen := by decide
  have found' : unordered.find? (2 ^ 64 - 1) = some saturated := by decide
  exact ⟨⟨found, by decide, (exact_iff (by decide)).1 found⟩,
    found', (order found).2 _ _ (by decide) found', by decide⟩

end SeekIndex

end CueIndex
