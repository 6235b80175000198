import PathGlob.Proofs.Traversal.Records

/-! # Searches that log
What is observed of a search was read off the events of its run. A search that logs looks at the settings
while it runs: every call, every note and every answer leaves its records behind what has been observed
so far. Both come to the same.

* **`LoggedM`** — programs that look at the settings and leave observations.
* **`logged`**, **`traced`**, **`asked`** — a message to a logger, a traced call, a question to a provider.
* **`runLogged`**, **`searchLogged`** — the run of a walk and a search that log.
* **`Leaves`** — what a program returns and leaves, with one rule for each program.
* **`searchLogged_run`** — the main statement: a search that logs leaves its `searchObservations`. -/

namespace PathGlob

/-! ## Programs that log -/

/-- Programs that look at the settings and leave observations, in order. -/
abbrev LoggedM (ε : Type) : Type → Type := ReaderT Logging (StateM (List (Observation ε)))

variable {ε α β : Type}

/-- Leaves one observation. -/
def leave (o : Observation ε) : LoggedM ε Unit := modify (· ++ [o])

/-- A message to a logger, which leaves a record if its level is enabled. -/
def logged (logger : Text) (l : Level) (m : LogMessage) : LoggedM ε Unit := do
  if (← read).isEnabled logger l then leave (.recorded ⟨l, logger, m.content⟩)

/-- A note, to the logger of searches or to that of walks. -/
def noted : Note → LoggedM ε Unit
  | .unbalanced pattern =>
    logged searchLogger debugLevel { text := (Note.unbalanced pattern).message }
  | n => logged walkLogger traceLevel { text := n.message }

/-- **A traced call**: while calls are traced, a message on the call in front of it, and one on its
result behind it if that is to be shown. -/
def traced (logger : Text) (site : CallSite) (c : Call) (shown : α → Value) (body : LoggedM ε α) :
    LoggedM ε α := do
  if !(← read).callTracing then body
  else
    logged logger site.level { text := site.callMessage c }
    let result ← body
    if site.exiting then logged logger site.level { text := site.resultMessage (shown result) }
    return result

/-- A question to a provider, which answers and keeps records of its own accord. -/
def asked (own : OwnRecords) (p : Provider ε) (query : Query) : LoggedM ε (query.Answer ε) := do
  leave (.asked query (p.answer query))
  forM (own (← read) query) fun record => leave (.recorded record)
  return p.answer query

/-- **One step of a walk**: what the job does, and the jobs that take its place. -/
def stepLogged (own : OwnRecords) (p : Provider ε) (t : Job ε) : LoggedM ε (List (Job ε)) := do
  match t.action p.entryName with
  | .ask note? query proceed =>
    note?.forM noted
    return proceed (← asked own p query)
  | .found e =>
    leave (.found e)
    return []
  | .say n =>
    noted n
    return []

/-- **The run of a walk**, for no more than a number of steps; the jobs that are left. -/
def runLogged (own : OwnRecords) (p : Provider ε) : Nat → List (Job ε) → LoggedM ε (List (Job ε))
  | 0, ts => return ts
  | _ + 1, [] => return []
  | n + 1, t :: ts => do runLogged own p n ((← stepLogged own p t) ++ ts)

/-- **A search**: the traced call, which only makes the jobs, and then their run. -/
def searchLogged (own : OwnRecords) (c : Call) (shown : List (Job ε) → Value) (p : Provider ε)
    (n : Nat) (fs : Flags) (pattern : Text) : LoggedM ε (List (Job ε)) := do
  let ts ← traced searchLogger searchSite c shown (return searchJobs fs pattern)
  runLogged own p n ts

/-! ## What programs leave -/

/-- **Under the settings `g` a program returns `a` and leaves `os`** behind what has been observed. -/
def Leaves (g : Logging) (x : LoggedM ε α) (a : α) (os : List (Observation ε)) : Prop :=
  ∀ before, (x.run g).run before = (a, before ++ os)

variable {g : Logging} {own : OwnRecords} {p : Provider ε}

/-- A value leaves nothing. -/
theorem leaves_pure (a : α) : Leaves g (pure a : LoggedM ε α) a [] := fun before => by
  rw [List.append_nil]
  rfl

/-- One program leaves what it does behind what the other one leaves. -/
theorem Leaves.bind {x : LoggedM ε α} {f : α → LoggedM ε β} {a : α} {b : β}
    {os os' : List (Observation ε)} (hx : Leaves g x a os) (hf : Leaves g (f a) b os') :
    Leaves g (x >>= f) b (os ++ os') := fun before => by
  -- the second program starts behind what the first one has left
  show (let (a', after) := (x.run g).run before
    ((f a').run g).run after) = _
  rw [hx before]
  show ((f a).run g).run (before ++ os) = _
  rw [hf, List.append_assoc]

/-- A program behind it that leaves nothing. -/
theorem Leaves.bind_nil {x : LoggedM ε α} {f : α → LoggedM ε β} {a : α} {b : β}
    {os : List (Observation ε)} (hx : Leaves g x a os) (hf : Leaves g (f a) b []) :
    Leaves g (x >>= f) b os := by
  simpa using hx.bind hf

/-- What a program does that looks at the settings first. -/
theorem leaves_read {f : Logging → LoggedM ε α} {a : α} {os : List (Observation ε)}
    (h : Leaves g (f g) a os) : Leaves g (do f (← read)) a os := fun before => h before

/-- One observation is left. -/
theorem leaves_leave (o : Observation ε) : Leaves g (leave o) () [o] := fun _ => rfl

/-- Several records are left, one after the other. -/
theorem leaves_forM (rs : List LogRecord) :
    Leaves g (forM rs fun record => leave (.recorded record) : LoggedM ε PUnit) ⟨⟩
      (rs.map .recorded) := by
  induction rs with
  | nil => exact leaves_pure _
  | cons r rs ih =>
    rw [List.forM_cons, List.map_cons]
    exact (leaves_leave _).bind ih

/-- A message leaves its record. -/
theorem leaves_logged (logger : Text) (l : Level) (m : LogMessage) :
    Leaves g (logged logger l m : LoggedM ε Unit) () ((g.log logger l m).map .recorded) := by
  refine leaves_read ?_
  unfold Logging.log
  split
  · exact leaves_leave _
  · exact leaves_pure _

/-- A note leaves its records. -/
theorem leaves_noted (n : Note) :
    Leaves g (noted n : LoggedM ε Unit) () ((n.records g).map .recorded) := by
  cases n with
  | unbalanced pattern => exact leaves_logged _ _ _
  | test path => exact leaves_logged _ _ _
  | list base segment => exact leaves_logged _ _ _

/-- **A traced call leaves the record of the call**, then what the call itself leaves, and then the
record of its result. -/
theorem leaves_traced (logger : Text) (site : CallSite) (c : Call) (shown : α → Value)
    {body : LoggedM ε α} {a : α} {os : List (Observation ε)} (h : Leaves g body a os) :
    Leaves g (traced logger site c shown body) a
      ((g.traceCall logger site c).map .recorded ++
        (os ++ (g.traceResult logger site (shown a)).map .recorded)) := by
  refine leaves_read ?_
  unfold Logging.traceCall Logging.traceResult
  cases g.callTracing with
  | false => simpa using h
  | true =>
    refine (leaves_logged logger site.level _).bind (h.bind ?_)
    cases site.exiting with
    | false => exact leaves_pure a
    | true =>
      exact (leaves_logged logger site.level _).bind_nil (leaves_pure a)

/-- A question leaves itself with its answer, and behind it the records of the provider. -/
theorem leaves_asked (query : Query) :
    Leaves g (asked own p query) (p.answer query)
      (.asked query (p.answer query) :: (own g query).map .recorded) := by
  unfold asked
  refine (leaves_leave _).bind (leaves_read ?_)
  exact (leaves_forM (own g query)).bind_nil (leaves_pure (p.answer query))

/-- Notes are left one after the other. -/
theorem leaves_forM_noted (note? : Option Note) :
    Leaves g (note?.forM noted : LoggedM ε PUnit) ⟨⟩
      ((note?.toList.map .noted).flatMap (Event.observations g own)) := by
  cases note? with
  | none => exact leaves_pure _
  | some n => simpa [Event.observations] using leaves_noted n

/-- **A step leaves what is observed of its events**, and leads to the same jobs. -/
theorem leaves_stepLogged (t : Job ε) :
    Leaves g (stepLogged own p t) (t.next p) (t.observations g own p) := by
  unfold stepLogged Job.observations Job.events Job.next
  cases t.action p.entryName with
  | ask note? query proceed =>
    -- the note comes in front of the question, and the records of the provider behind it
    rw [Action.run, List.flatMap_append, List.flatMap_singleton]
    exact (leaves_forM_noted note?).bind ((leaves_asked query).bind_nil (leaves_pure _))
  | found e => exact (leaves_leave (.found e)).bind_nil (leaves_pure [])
  | say n =>
    rw [Action.run, List.flatMap_singleton]
    exact (leaves_noted n).bind_nil (leaves_pure _)

/-- **A run leaves what is observed of it**, and the same jobs are left. -/
theorem leaves_runLogged (n : Nat) (ts : List (Job ε)) :
    Leaves g (runLogged own p n ts) (runWithin p n ts).2 (runObservations g own p n ts) := by
  induction n generalizing ts with
  | zero => exact leaves_pure ts
  | succ n ih =>
    cases ts with
    | nil => exact leaves_pure []
    | cons t ts =>
      rw [runObservations_cons]
      exact (leaves_stepLogged t).bind (ih (t.next p ++ ts))

/-- A result that is not to be shown leaves no record. -/
theorem Logging.traceResult_eq_nil (g : Logging) {logger : Text} {site : CallSite}
    (h : site.exiting = false) (result : Value) : g.traceResult logger site result = [] := by
  simp [Logging.traceResult, h]

/-- A search leaves the records of its call, and behind them what is observed of its run. -/
theorem leaves_searchLogged (c : Call) (shown : List (Job ε) → Value) (n : Nat) (fs : Flags)
    (pattern : Text) :
    Leaves g (searchLogged own c shown p n fs pattern) (runWithin p n (searchJobs fs pattern)).2
      (searchObservations g own c p n fs pattern) := by
  have hcall : Leaves g (traced searchLogger searchSite c shown (return searchJobs fs pattern) :
      LoggedM ε (List (Job ε))) (searchJobs fs pattern) ((searchCallRecords g c).map .recorded) := by
    -- the result of the call is not shown
    have hresult : g.traceResult searchLogger searchSite (shown (searchJobs fs pattern)) = [] :=
      g.traceResult_eq_nil rfl _
    have htraced := leaves_traced searchLogger searchSite c shown
      (leaves_pure (g := g) (ε := ε) (searchJobs fs pattern))
    rwa [hresult, List.map_nil, List.append_nil, List.append_nil] at htraced
  exact hcall.bind (leaves_runLogged n (searchJobs fs pattern))

/-! ## Searches -/

/-- **A search that logs leaves its `searchObservations`.** Under all settings, whatever
has been observed before and whatever a provider records of its own accord, the traced call and the run
behind it leave the records of the call and what is observed of the run, and the same jobs are left. -/
theorem searchLogged_run (g : Logging) (own : OwnRecords) (c : Call) (shown : List (Job ε) → Value)
    (p : Provider ε) (n : Nat) (fs : Flags) (pattern : Text) (before : List (Observation ε)) :
    ((searchLogged own c shown p n fs pattern).run g).run before =
      ((runWithin p n (searchJobs fs pattern)).2,
        before ++ searchObservations g own c p n fs pattern) :=
  leaves_searchLogged c shown n fs pattern before

/-- **Under any two settings a search asks and finds the same**, and the same jobs are left. -/
theorem searchLogged_agree (g g' : Logging) (own own' : OwnRecords) (c : Call)
    (shown : List (Job ε) → Value) (p : Provider ε) (n : Nat) (fs : Flags) (pattern : Text) :
    let under := fun (h : Logging) (o : OwnRecords) =>
      ((searchLogged o c shown p n fs pattern).run h).run []
    (under g own).1 = (under g' own').1 ∧
      withoutRecords (under g own).2 = withoutRecords (under g' own').2 := by
  simp only [searchLogged_run, List.nil_append, true_and]
  rw [withoutRecords_search, withoutRecords_search]

end PathGlob
