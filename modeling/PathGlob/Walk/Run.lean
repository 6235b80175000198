import PathGlob.Walk

/-! # Running walks
A walk goes on by having its first job done under a provider. What happens on the way is a list of
events; how far a run goes is up to the caller, and a walk that rests is continued from the jobs
that are left.

* **`Event`** — what happens in a run.
* **`Action.run`** — one step under a provider.
* **`runWithin`** — runs a walk for a limited number of steps; **`runWithin_add`** says that a run can
  be continued from the jobs that are left.
* **`pull`** — runs a walk up to the next entry, for a limited number of steps. -/

namespace PathGlob

/-- Something that happens in the run of a walk. -/
inductive Event (ε : Type)
  /-- The provider is asked and answers. -/
  | asked (query : Query) (answer : query.Answer ε)
  /-- An entry is handed out. -/
  | found (entry : ε)
  /-- A note is left. -/
  | noted (note : Note)

/-- The events of a step under a provider, and the jobs that take the place of the first one. -/
def Action.run {ε : Type} (p : Provider ε) : Action ε → List (Event ε) × List (Job ε)
  | .ask note? query proceed =>
    let answer := p.answer query
    (note?.toList.map .noted ++ [.asked query answer], proceed answer)
  | .found entry => ([.found entry], [])
  | .say note => ([.noted note], [])

/-- The entry that an event hands out. -/
def Event.found? {ε : Type} : Event ε → Option ε
  | .found entry => some entry
  | _ => none

/-! ## Runs of a number of steps -/

/-- Runs a walk for no more than a number of steps: what happens on the way, and the jobs that are
left. Entries are handed out without a rest. -/
def runWithin {ε : Type} (p : Provider ε) : Nat → List (Job ε) → List (Event ε) × List (Job ε)
  | 0, ts => ([], ts)
  | _ + 1, [] => ([], [])
  | n + 1, t :: ts =>
    let (events, new) := (t.action p.entryName).run p
    let (later, rest) := runWithin p n (new ++ ts)
    (events ++ later, rest)

@[simp] theorem runWithin_zero {ε : Type} (p : Provider ε) (ts : List (Job ε)) :
    runWithin p 0 ts = ([], ts) := rfl

@[simp] theorem runWithin_nil {ε : Type} (p : Provider ε) (n : Nat) :
    runWithin p n [] = ([], []) := by
  cases n <;> rfl

/-- A run can be continued from the jobs that are left. -/
theorem runWithin_add {ε : Type} (p : Provider ε) (m n : Nat) (ts : List (Job ε)) :
    runWithin p (m + n) ts =
      ((runWithin p m ts).1 ++ (runWithin p n (runWithin p m ts).2).1,
        (runWithin p n (runWithin p m ts).2).2) := by
  induction m generalizing ts with
  | zero => simp
  | succ m ih =>
    cases ts with
    | nil => simp
    | cons t ts => simp [Nat.succ_add, runWithin, ih]

/-! ## Runs up to an entry -/

/-- How a run comes to rest. -/
inductive Pull (ε : Type)
  /-- An entry is found; the jobs are what remains behind it. -/
  | found (entry : ε) (rest : List (Job ε))
  /-- Nothing remains to be done. -/
  | finished
  /-- The steps are used up. -/
  | paused (rest : List (Job ε))

/-- Runs a walk up to the next entry, but for no more than a number of steps. Nothing behind the
entry is done. -/
def pull {ε : Type} (p : Provider ε) : Nat → List (Job ε) → List (Event ε) × Pull ε
  | _, [] => ([], .finished)
  | 0, ts => ([], .paused ts)
  | n + 1, t :: ts =>
    match t.action p.entryName with
    | .found entry => ([.found entry], .found entry ts)
    | action =>
      let (events, new) := action.run p
      let (later, result) := pull p n (new ++ ts)
      (events ++ later, result)

@[simp] theorem pull_nil {ε : Type} (p : Provider ε) (n : Nat) : pull p n [] = ([], .finished) := by
  cases n <;> rfl

@[simp] theorem pull_zero_cons {ε : Type} (p : Provider ε) (t : Job ε) (ts : List (Job ε)) :
    pull p 0 (t :: ts) = ([], .paused (t :: ts)) := rfl

/-- An entry that is ready is handed out at once. -/
@[simp] theorem pull_deliver {ε : Type} (p : Provider ε) (n : Nat) (entry : ε)
    (ts : List (Job ε)) :
    pull p (n + 1) (.deliver entry :: ts) = ([.found entry], .found entry ts) := rfl

end PathGlob
