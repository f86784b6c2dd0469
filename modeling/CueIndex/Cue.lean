/-!
# Cues

A cue says where in the stream a moment of one track is found.

* `CuePoint` — one cue.
* `CueList` — cues in the order in which they were met, of which only the newest is still being
  filled in.  `CueList.toList` shows them, and the lemmas here say what each operation does to that
  view.
-/

namespace CueIndex

/-- A moment of a track and the place of the cluster that holds it. -/
structure CuePoint where
  /-- The moment, in ticks. -/
  time : UInt64 := 0
  /-- The number of the track. -/
  track : UInt64 := 0
  /-- How many bytes into the segment's payload the cluster starts. -/
  clusterPosition : UInt64 := 0
  deriving DecidableEq, Repr, Inhabited

/-- A cue of which nothing is known yet. -/
def CuePoint.blank : CuePoint := {}

/-- Cues in the order in which they were met. -/
structure CueList where
  cues : Array CuePoint := #[]
  deriving DecidableEq, Repr, Inhabited

namespace CueList

/-- No cues. -/
def empty : CueList := {}

/-- The cues in the order in which they were met. -/
def toList (list : CueList) : List CuePoint := list.cues.toList

def length (list : CueList) : Nat := list.cues.size

def isEmpty (list : CueList) : Bool := list.cues.isEmpty

/-- The cue still being filled in. -/
def newest? (list : CueList) : Option CuePoint := list.cues.back?

/-- One more cue, still blank. -/
def push (list : CueList) : CueList := ⟨list.cues.push .blank⟩

/-- The list with its newest cue changed; without a cue there is nothing to change. -/
def updateNewest (list : CueList) (change : CuePoint → CuePoint) : CueList :=
  ⟨list.cues.modify (list.cues.size - 1) change⟩

/-- Two lists that show the same cues are the same. -/
@[ext] theorem ext {left right : CueList} (same : left.toList = right.toList) : left = right := by
  obtain ⟨cues⟩ := left
  obtain ⟨others⟩ := right
  exact congrArg mk (Array.toList_inj.1 same)

@[simp] theorem toList_empty : empty.toList = [] := rfl

@[simp] theorem length_toList (list : CueList) : list.toList.length = list.length := rfl

theorem isEmpty_iff {list : CueList} : list.isEmpty = true ↔ list.toList = [] := by
  simp [isEmpty, toList]

theorem newest?_eq_getLast? (list : CueList) : list.newest? = list.toList.getLast? := by
  simp [newest?, toList]

@[simp] theorem toList_push (list : CueList) : list.push.toList = list.toList ++ [.blank] := by
  simp [push, toList]

@[simp] theorem length_push (list : CueList) : list.push.length = list.length + 1 := by
  simp [push, length]

@[simp] theorem length_updateNewest (list : CueList) (change : CuePoint → CuePoint) :
    (list.updateNewest change).length = list.length := by
  simp [updateNewest, length]

/-- Without a cue nothing is changed. -/
theorem toList_updateNewest_of_nil {list : CueList} {change : CuePoint → CuePoint}
    (none : list.toList = []) : (list.updateNewest change).toList = [] := by
  simp_all [updateNewest, toList]

/-- Only the newest cue is changed, and all others stay where they are. -/
theorem toList_updateNewest {list : CueList} {change : CuePoint → CuePoint} {older : List CuePoint}
    {newest : CuePoint} (shape : list.toList = older ++ [newest]) :
    (list.updateNewest change).toList = older ++ [change newest] := by
  have size : list.cues.size - 1 = older.length := by
    have := congrArg List.length shape
    simp only [length_toList, length, List.length_append, List.length_singleton] at this
    omega
  rw [toList] at shape
  rw [toList, updateNewest, size, Array.toList_modify, shape,
    List.modify_eq_take_cons_drop (by simp)]
  simp

end CueList

end CueIndex
