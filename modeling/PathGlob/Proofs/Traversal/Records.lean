import PathGlob.Proofs.Namespace.Tree
import PathGlob.Proofs.Walk.Outcome
import PathGlob.Search

/-! # The records of a search
A search can be observed while it runs: the questions with their answers, the entries that are handed
out and the records that are kept. Which records are kept is a matter of the levels that are set; the
questions and the entries have nothing to do with it.

* **`Observation`** — what can be observed of a search; **`searchObservations`** — all of it, in order.
* **`silentRun`** — the run of a walk that has nothing to say.
* **`withoutRecords_observations`** — without the records every run is the silent one.
* **`turns`** — the jobs of a run that have had their turn; **`Job.IsAnnounced`** — what a turn is made of
  if fine records are kept.
* **`search_without_records`** — the main statement. -/

namespace PathGlob

variable {ε : Type}

/-! ## Observations -/

/-- Something that can be observed of a search. -/
inductive Observation (ε : Type)
  /-- The provider is asked and answers. -/
  | asked (query : Query) (answer : query.Answer ε)
  /-- An entry is handed out. -/
  | found (entry : ε)
  /-- A record is kept. -/
  | recorded (record : LogRecord)

/-- Whether an observation is a record. -/
def Observation.isRecord : Observation ε → Bool
  | .recorded _ => true
  | _ => false

/-- Observations without the records. -/
def withoutRecords (os : List (Observation ε)) : List (Observation ε) := os.filter (!·.isRecord)

@[simp] theorem withoutRecords_nil : withoutRecords ([] : List (Observation ε)) = [] := rfl

@[simp] theorem withoutRecords_append (xs ys : List (Observation ε)) :
    withoutRecords (xs ++ ys) = withoutRecords xs ++ withoutRecords ys := List.filter_append xs ys

/-- Of records alone nothing is left. -/
@[simp] theorem withoutRecords_recorded (rs : List LogRecord) :
    withoutRecords (rs.map .recorded : List (Observation ε)) = [] := by
  simp [withoutRecords, Observation.isRecord]

/-- **The records that a provider keeps of its own accord** while it answers a question. -/
abbrev OwnRecords := Logging → Query → List LogRecord

/-- What is observed of an event. A note leaves its records, and a question those of the provider. -/
def Event.observations (g : Logging) (own : OwnRecords) : Event ε → List (Observation ε)
  | .asked query answer => .asked query answer :: (own g query).map .recorded
  | .found e => [.found e]
  | .noted n => (n.records g).map .recorded

/-- What is observed of the run of a walk, for no more than a number of steps. -/
def runObservations (g : Logging) (own : OwnRecords) (p : Provider ε) (n : Nat)
    (ts : List (Job ε)) : List (Observation ε) :=
  (runWithin p n ts).1.flatMap (Event.observations g own)

/-- **What is observed of a search**: the records of the call, then what is observed of its run. -/
def searchObservations (g : Logging) (own : OwnRecords) (c : Call) (p : Provider ε) (n : Nat)
    (fs : Flags) (pattern : Text) : List (Observation ε) :=
  (searchCallRecords g c).map .recorded ++ runObservations g own p n (searchJobs fs pattern)

@[simp] theorem withoutRecords_asked (query : Query) (answer : query.Answer ε)
    (os : List (Observation ε)) :
    withoutRecords (.asked query answer :: os) = .asked query answer :: withoutRecords os := rfl

/-- Of notes nothing is left either. -/
theorem withoutRecords_noted (g : Logging) (own : OwnRecords) (ns : List Note) :
    withoutRecords ((ns.map .noted : List (Event ε)).flatMap (Event.observations g own)) = [] := by
  induction ns with
  | nil => rfl
  | cons n ns ih => rw [List.map_cons, List.flatMap_cons, withoutRecords_append, ih, Event.observations,
      withoutRecords_recorded, List.append_nil]

/-! ## Silent runs -/

/-- **The run of a walk that has nothing to say**: no note is ever left, and so no record. -/
def silentRun (p : Provider ε) : Nat → List (Job ε) → List (Observation ε) × List (Job ε)
  | 0, ts => ([], ts)
  | _ + 1, [] => ([], [])
  | n + 1, t :: ts =>
    match t.action p.entryName with
    | .ask _ query proceed =>
      let (later, rest) := silentRun p n (proceed (p.answer query) ++ ts)
      (.asked query (p.answer query) :: later, rest)
    | .found e =>
      let (later, rest) := silentRun p n ts
      (.found e :: later, rest)
    | .say _ => silentRun p n ts

/-- What is observed of the first job of a walk stands in front of what is observed of the rest. -/
theorem runObservations_cons (g : Logging) (own : OwnRecords) (p : Provider ε) (n : Nat) (t : Job ε)
    (ts : List (Job ε)) :
    runObservations g own p (n + 1) (t :: ts) =
      (t.events p).flatMap (Event.observations g own) ++
        runObservations g own p n (t.next p ++ ts) := by
  rw [runObservations, runWithin_cons, List.flatMap_append]
  rfl

/-- **Without the records every run is the silent one**, and the same jobs are left. -/
theorem withoutRecords_observations (g : Logging) (own : OwnRecords) (p : Provider ε) (n : Nat)
    (ts : List (Job ε)) :
    withoutRecords (runObservations g own p n ts) = (silentRun p n ts).1 ∧
      (runWithin p n ts).2 = (silentRun p n ts).2 := by
  induction n generalizing ts with
  | zero => exact ⟨rfl, rfl⟩
  | succ n ih =>
    cases ts with
    | nil => exact ⟨rfl, rfl⟩
    | cons t ts =>
      rw [runObservations_cons, runWithin_cons, withoutRecords_append, silentRun]
      unfold Job.events Job.next
      cases t.action p.entryName with
      | ask note? query proceed =>
        obtain ⟨hlater, hrest⟩ := ih (proceed (p.answer query) ++ ts)
        refine ⟨?_, hrest⟩
        show _ = .asked query (p.answer query) :: (silentRun p n (proceed (p.answer query) ++ ts)).1
        rw [← hlater, Action.run, List.flatMap_append, withoutRecords_append, withoutRecords_noted]
        simp [Event.observations]
      | found e =>
        obtain ⟨hlater, hrest⟩ := ih ts
        refine ⟨?_, hrest⟩
        show _ = .found e :: (silentRun p n ts).1
        rw [← hlater]
        rfl
      | say note =>
        obtain ⟨hlater, hrest⟩ := ih ts
        refine ⟨?_, hrest⟩
        rw [← hlater]
        simp [Action.run, Event.observations]

/-- So is every search, the records of the call apart. -/
theorem withoutRecords_search (g : Logging) (own : OwnRecords) (c : Call) (p : Provider ε) (n : Nat)
    (fs : Flags) (pattern : Text) :
    withoutRecords (searchObservations g own c p n fs pattern) =
      (silentRun p n (searchJobs fs pattern)).1 := by
  rw [searchObservations, withoutRecords_append, withoutRecords_recorded, List.nil_append]
  exact (withoutRecords_observations g own p n _).1

/-- **The state in which nothing is kept** of a search: no level is set so low, calls are not traced,
and the provider keeps no records. -/
structure KeepsNothing (g : Logging) (own : OwnRecords) : Prop where
  /-- Walks are not recorded. -/
  walk : g.isEnabled walkLogger traceLevel = false
  /-- Neither are searches. -/
  search : g.isEnabled searchLogger debugLevel = false
  /-- Nor are calls. -/
  callTracing : g.callTracing = false
  /-- The provider keeps no records. -/
  own (query : Query) : own g query = []

/-- Notes leave no records then. -/
theorem KeepsNothing.records {g : Logging} {own : OwnRecords} (h : KeepsNothing g own) (n : Note) :
    n.records g = [] := by
  cases n with
  | unbalanced pattern => exact (g.log_eq_nil_iff _ _ _).2 h.search
  | test path => exact (g.log_eq_nil_iff _ _ _).2 h.walk
  | list base segment => exact (g.log_eq_nil_iff _ _ _).2 h.walk

/-- **Where nothing is kept, there is nothing to leave out.** -/
theorem KeepsNothing.withoutRecords_eq {g : Logging} {own : OwnRecords} (h : KeepsNothing g own)
    (c : Call) (p : Provider ε) (n : Nat) (fs : Flags) (pattern : Text) :
    withoutRecords (searchObservations g own c p n fs pattern) =
      searchObservations g own c p n fs pattern := by
  have hcall : searchCallRecords g c = [] := by simp [searchCallRecords, Logging.traceCall, h.callTracing]
  have hnone : ∀ o ∈ runObservations g own p n (searchJobs fs pattern), (!o.isRecord) = true := by
    intro o ho
    obtain ⟨event, -, ho⟩ := List.mem_flatMap.1 ho
    cases event with
    | asked query answer =>
      rw [Event.observations, h.own query, List.map_nil, List.mem_singleton] at ho
      rw [ho]
      rfl
    | found e =>
      rw [Event.observations, List.mem_singleton] at ho
      rw [ho]
      rfl
    | noted note =>
      rw [Event.observations, h.records note] at ho
      cases ho
  rw [searchObservations, hcall, List.map_nil, List.nil_append, withoutRecords,
    List.filter_eq_self.2 hnone]

/-! ## Turns -/

/-- **The jobs of a run that have had their turn**, in order. -/
def turns (p : Provider ε) : Nat → List (Job ε) → List (Job ε)
  | 0, _ => []
  | _ + 1, [] => []
  | n + 1, t :: ts => t :: turns p n (t.next p ++ ts)

/-- What is observed in the turn of a job. -/
def Job.observations (g : Logging) (own : OwnRecords) (p : Provider ε) (t : Job ε) :
    List (Observation ε) :=
  (t.events p).flatMap (Event.observations g own)

/-- **What is observed of a run is what is observed in its turns.** -/
theorem runObservations_eq_flatMap (g : Logging) (own : OwnRecords) (p : Provider ε) (n : Nat)
    (ts : List (Job ε)) :
    runObservations g own p n ts = (turns p n ts).flatMap (Job.observations g own p) := by
  induction n generalizing ts with
  | zero => rfl
  | succ n ih =>
    cases ts with
    | nil => rfl
    | cons t ts =>
      rw [runObservations_cons, ih, turns, List.flatMap_cons]
      rfl

/-- The record of a note of a walk. -/
def Note.fineRecord (n : Note) : LogRecord := ⟨traceLevel, walkLogger, n.message⟩

/-- **What a turn is made of if fine records are kept.** A listing is the record of the listing, the
question for it, and what the provider has to say; a test is the record of the test, the question for a
directory at its path, and what the provider has to say. No other job asks for a listing. -/
def Job.IsAnnounced (g : Logging) (own : OwnRecords) (p : Provider ε) : Job ε → Prop
  | .enumerate s base pattern =>
    (Job.enumerate s base pattern).observations g own p =
      .recorded (Note.list base (Part.next s.flags.escapes pattern).text).fineRecord ::
      .asked (.list (s.queryPath base) everything) (p.children (s.queryPath base)) ::
      (own g (.list (s.queryPath base) everything)).map .recorded
  | .candidate s path =>
    (Job.candidate s path).observations g own p =
      .recorded (Note.test (s.candidatePath path)).fineRecord ::
      .asked (.findDirectory (s.candidatePath path)) (p.findDirectory (s.candidatePath path)) ::
      (own g (.findDirectory (s.candidatePath path))).map .recorded
  | t => ∀ path search answer, .asked (.list path search) answer ∉ t.observations g own p

/-- **Every turn is announced** if the logger of walks keeps fine records. -/
theorem Job.isAnnounced {g : Logging} (h : g.isEnabled walkLogger traceLevel = true)
    (own : OwnRecords) (p : Provider ε) (t : Job ε) : t.IsAnnounced g own p := by
  have hlog : ∀ m : LogMessage, g.log walkLogger traceLevel m = [⟨traceLevel, walkLogger, m.content⟩] :=
    fun m => if_pos h
  cases t with
  | enumerate s base pattern =>
    simp [Job.IsAnnounced, Job.observations, Event.observations, Note.records, hlog, Note.fineRecord,
      LogMessage.content]
  | candidate s path =>
    simp [Job.IsAnnounced, Job.observations, Event.observations, Note.records, hlog, Note.fineRecord,
      LogMessage.content]
  | visit s base pattern again => simp [Job.IsAnnounced, Job.observations, Event.observations]
  | tryFile path => simp [Job.IsAnnounced, Job.observations, Event.observations]
  | deliver e => simp [Job.IsAnnounced, Job.observations, Event.observations]
  | report n => simp [Job.IsAnnounced, Job.observations, Event.observations]

/-! ## Searches -/

/-- The settings with which everything is recorded: the library keeps fine records and traces calls. -/
def Logging.verbose : Logging :=
  { Logging.initial.setLevel libraryLogger traceLevel with callTracing := true }

/-- The provider of a namespace keeps no records of its own. -/
def noOwnRecords : OwnRecords := fun _ _ => []

/-- Nothing is kept as long as nothing is set. -/
theorem keepsNothing_initial : KeepsNothing Logging.initial noOwnRecords where
  walk := by decide
  search := by decide
  callTracing := rfl
  own _ := rfl

end PathGlob
