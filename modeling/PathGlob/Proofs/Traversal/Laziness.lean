import Mathlib.Logic.Function.Basic
import PathGlob.Proofs.Traversal.Endings
import PathGlob.Proofs.Walk.Enumeration
import PathGlob.Proofs.Walk.Pulls

/-! # Searches that rest between entries
Entries are pulled from a search one by one, and it rests in between. What has happened so far is always
the beginning of what happens in the enumeration that never rests, up to the question that found the last
entry. Searches that take turns do not disturb each other.

* **`Pulled`**, **`Drained`** — entries that are pulled one after the other, and until there are no more.
* **`EndsInFind`** — events that end with the finding of an entry.
* **`drained_iff`**, **`exists_pulled_iff`** — pulls told from the runs of the walk.
* **`Conversation`** — pulls from several walks, in any order, and questions in between.
* **`pulls_follow_enumeration`** — the main statement. -/

namespace PathGlob

variable {ε : Type} {p : Provider ε} {ts rest : List (Job ε)} {events : List (Event ε)} {es : List ε}

/-! ## Pulls one after the other -/

/-- **Entries that are pulled from a walk one after the other**, with all that happens and the jobs that
are left. -/
inductive Pulled (p : Provider ε) (ts : List (Job ε)) :
    List (Event ε) → List ε → List (Job ε) → Prop
  /-- Nothing has been pulled. -/
  | start : Pulled p ts [] [] ts
  /-- One more entry is pulled. -/
  | next {events more : List (Event ε)} {es : List ε} {rest rest' : List (Job ε)} {n : Nat} {e : ε}
    (h : Pulled p ts events es rest) (hpull : pull p n rest = (more, .found e rest')) :
    Pulled p ts (events ++ more) (es ++ [e]) rest'

/-- **Entries that are pulled from a walk until there are no more**, with all that happens. -/
def Drained (p : Provider ε) (ts : List (Job ε)) (events : List (Event ε)) (es : List ε) : Prop :=
  ∃ before rest more n, Pulled p ts before es rest ∧ pull p n rest = (more, .finished) ∧
    events = before ++ more

/-- An entry may be pulled before all others. -/
theorem Pulled.cons {n : Nat} {more : List (Event ε)} {e : ε} {us : List (Job ε)}
    (hpull : pull p n us = (more, .found e ts)) (h : Pulled p ts events es rest) :
    Pulled p us (more ++ events) (e :: es) rest := by
  induction h with
  | start =>
    rw [List.append_nil]
    exact .next .start hpull
  | next _ hnext ih =>
    rw [← List.append_assoc]
    exact .next ih hnext

/-- Pulls are a run. -/
theorem Pulled.exists_runWithin (h : Pulled p ts events es rest) :
    ∃ m, runWithin p m ts = (events, rest) := by
  induction h with
  | start => exact ⟨0, rfl⟩
  | next _ hpull ih =>
    obtain ⟨m, hm⟩ := ih
    obtain ⟨k, -, hk⟩ := exists_runWithin_of_pull hpull
    exact ⟨m + (k + 1), by rw [runWithin_add, hm, hk]⟩

/-- The entries that are pulled are those that are handed out. -/
theorem Pulled.filterMap_found? (h : Pulled p ts events es rest) :
    events.filterMap Event.found? = es := by
  induction h with
  | start => rfl
  | @next events more es rest rest' n e _ hpull ih =>
    have hmore := filterMap_pull p n rest
    rw [hpull] at hmore
    rw [List.filterMap_append, ih, hmore]
    rfl

/-- **A run consists of pulls**, and then nothing more is handed out. If the run is over, a last pull
comes to the end. -/
theorem exists_pulled (p : Provider ε) (m : Nat) (ts : List (Job ε)) :
    ∃ before es rest more, Pulled p ts before es rest ∧
      (runWithin p m ts).1 = before ++ more ∧ more.filterMap Event.found? = [] ∧
      ((runWithin p m ts).2 = [] → ∃ n, pull p n rest = (more, .finished)) := by
  induction m using Nat.strongRecOn generalizing ts with
  | _ m shorter =>
    rcases hpull : pull p m ts with ⟨more, result⟩
    have hfound := filterMap_pull p m ts
    rw [hpull] at hfound
    have hrun : result.found? = none → runWithin p m ts = (more, result.rest) := by
      intro h
      rw [runWithin_of_pull (by rw [hpull]; exact h), hpull]
    cases result with
    | found e us =>
      obtain ⟨k, hk, hturns⟩ := exists_runWithin_of_pull hpull
      obtain ⟨j, rfl⟩ := Nat.exists_eq_add_of_le (Nat.succ_le_of_lt hk)
      obtain ⟨before, es, rest, tail, hpulled, hevents, htail, hover⟩ := shorter j (by omega) us
      refine ⟨more ++ before, e :: es, rest, tail, hpulled.cons hpull, ?_, htail, ?_⟩
      · rw [runWithin_add, Nat.succ_eq_add_one, hturns, hevents, List.append_assoc]
      · rw [runWithin_add, Nat.succ_eq_add_one, hturns]
        exact hover
    | finished =>
      exact ⟨[], [], ts, more, .start, by rw [hrun rfl]; rfl, hfound, fun _ => ⟨m, hpull⟩⟩
    | paused us =>
      refine ⟨[], [], ts, more, .start, by rw [hrun rfl]; rfl, hfound, fun hover => ?_⟩
      have hrest : us = [] := by rwa [hrun rfl] at hover
      exact absurd hrest (ne_nil_of_paused (congrArg Prod.snd hpull))

/-- **A walk can be drained exactly if its run comes to an end**, and the same happens. -/
theorem drained_iff :
    Drained p ts events es ↔
      (∃ m, runWithin p m ts = (events, [])) ∧ events.filterMap Event.found? = es := by
  constructor
  · rintro ⟨before, rest, more, n, hpulled, hpull, rfl⟩
    obtain ⟨m, hm⟩ := hpulled.exists_runWithin
    have hlast : (pull p n rest).2.found? = none := by rw [hpull]; rfl
    have hrun := runWithin_of_pull hlast
    have hmore := filterMap_pull p n rest
    rw [hpull] at hrun hmore
    refine ⟨⟨m + n, by rw [runWithin_add, hm, hrun]; rfl⟩, ?_⟩
    rw [List.filterMap_append, hpulled.filterMap_found?, hmore]
    exact List.append_nil es
  · rintro ⟨⟨m, hm⟩, rfl⟩
    obtain ⟨before, es, rest, more, hpulled, hrun, hmore, hover⟩ := exists_pulled p m ts
    rw [hm] at hrun hover
    have hevents : events = before ++ more := hrun
    obtain ⟨n, hn⟩ := hover rfl
    have hes : events.filterMap Event.found? = es := by
      rw [hevents, List.filterMap_append, hpulled.filterMap_found?, hmore, List.append_nil]
    rw [hes]
    exact ⟨before, rest, more, n, hpulled, hn, hevents⟩

/-! ## Where pulls end -/

/-- An event that finds an entry: the entry answers the question for a directory or a file. -/
def Event.IsFindOf (x : Event ε) (e : ε) : Prop :=
  ∃ path, x = .asked (.findDirectory path) (some e) ∨ x = .asked (.findFile path) (some e)

/-- **Events that end with the finding of an entry**, which is handed out at once; or nothing has
happened. -/
def EndsInFind (events : List (Event ε)) : Prop :=
  events = [] ∨ ∃ front x e, events = front ++ [x, .found e] ∧ x.IsFindOf e

/-- A pull ends with the finding of its entry if no entry was ready before, and then none is ready
again. -/
theorem NoneReady.of_pull {n : Nat} {e : ε} (hts : NoneReady ts)
    (h : pull p n ts = (events, .found e rest)) :
    (∃ front x, events = front ++ [x, .found e] ∧ x.IsFindOf e) ∧ NoneReady rest := by
  induction n generalizing ts events with
  | zero => cases ts <;> cases h
  | succ n ih =>
    cases ts with
    | nil => cases h
    | cons t ts =>
      rcases t.handsOut_cases p with ⟨e', rfl⟩ | hnothing
      · exact absurd List.mem_cons_self (hts e')
      · rw [pull_succ hnothing] at h
        obtain ⟨rfl, hresult⟩ := Prod.mk.inj h
        have htail : NoneReady ts := fun e' he' => hts e' (List.mem_cons_of_mem t he')
        by_cases hready : ∃ e', .deliver e' ∈ t.next p
        · -- the entry is found in this turn and handed out in the next one
          obtain ⟨e', he'⟩ := hready
          obtain ⟨hnext, front, path, hfind⟩ := Job.of_deliver_mem_next he'
          rw [hnext] at hresult ⊢
          cases n with
          | zero => cases hresult
          | succ n =>
            cases hresult
            rcases hfind with ⟨hevents, -⟩ | ⟨hevents, -⟩
            · exact ⟨⟨front, _, by rw [hevents, List.append_assoc]; rfl, path, .inl rfl⟩, htail⟩
            · exact ⟨⟨front, _, by rw [hevents, List.append_assoc]; rfl, path, .inr rfl⟩, htail⟩
        · have hnone : NoneReady (t.next p ++ ts) := by
            intro e' he'
            rcases List.mem_append.1 he' with he' | he'
            · exact hready ⟨e', he'⟩
            · exact htail e' he'
          obtain ⟨⟨front, x, hevents, hx⟩, hrest⟩ := ih hnone (Prod.ext rfl hresult)
          refine ⟨⟨t.events p ++ front, x, ?_, hx⟩, hrest⟩
          rw [List.append_assoc]
          exact congrArg (t.events p ++ ·) hevents

/-- Pulls end with the finding of an entry if no entry was ready before. -/
theorem Pulled.endsInFind (h : Pulled p ts events es rest) (hts : NoneReady ts) :
    EndsInFind events ∧ NoneReady rest := by
  induction h with
  | start => exact ⟨.inl rfl, hts⟩
  | @next events more es rest rest' n e _ hpull ih =>
    obtain ⟨⟨front, x, rfl, hx⟩, hrest⟩ := ih.2.of_pull hpull
    exact ⟨.inr ⟨events ++ front, x, e, (List.append_assoc ..).symm, hx⟩, hrest⟩

/-- A run may stop behind any entry that it hands out. -/
theorem exists_runWithin_of_prefix {m : Nat} {e : ε}
    (h : events ++ [.found e] <+: (runWithin p m ts).1) :
    ∃ k, (runWithin p k ts).1 = events ++ [.found e] := by
  induction m generalizing ts events with
  | zero => simp at h
  | succ m ih =>
    cases ts with
    | nil => simp at h
    | cons t ts =>
      rw [runWithin_cons] at h
      rcases List.prefix_or_prefix_of_prefix h (List.prefix_append (t.events p) _) with hle | hge
      · -- the entry is handed out in the first turn
        have he : e ∈ t.handsOut p :=
          List.mem_filterMap.2 ⟨.found e, hle.subset (by simp), rfl⟩
        rcases t.handsOut_cases p with ⟨e', rfl⟩ | hnothing
        · have heq := hle.eq_of_length_le (by simp)
          exact ⟨1, heq.symm⟩
        · rw [hnothing] at he
          cases he
      · obtain ⟨later, hlater⟩ := hge
        rw [← hlater, List.prefix_append_right_inj] at h
        rcases List.eq_nil_or_concat later with rfl | ⟨front, x, rfl⟩
        · exact ⟨1, by rw [runWithin_cons, ← hlater]; rfl⟩
        · rw [List.concat_eq_append, ← List.append_assoc] at hlater
          obtain ⟨-, hx⟩ := List.append_inj' hlater rfl
          cases hx
          rw [List.concat_eq_append] at h
          obtain ⟨k, hk⟩ := ih h
          exact ⟨k + 1, by rw [runWithin_cons, ← hlater, List.append_assoc, ← hk]⟩

/-- **Pulls are the beginnings of runs that end with the finding of an entry.** -/
theorem exists_pulled_iff (hts : NoneReady ts) :
    (∃ rest, Pulled p ts events es rest) ↔
      (∃ m, events <+: (runWithin p m ts).1) ∧ events.filterMap Event.found? = es ∧
        EndsInFind events := by
  constructor
  · rintro ⟨rest, h⟩
    obtain ⟨m, hm⟩ := h.exists_runWithin
    have hevents : events = (runWithin p m ts).1 := by rw [hm]
    exact ⟨⟨m, hevents ▸ List.prefix_rfl⟩, h.filterMap_found?, (h.endsInFind hts).1⟩
  · rintro ⟨⟨m, hm⟩, rfl, rfl | ⟨front, x, e, rfl, -⟩⟩
    · exact ⟨ts, .start⟩
    · have hsplit : front ++ [x, .found e] = (front ++ [x]) ++ [.found e] := by simp
      rw [hsplit] at hm ⊢
      obtain ⟨k, hk⟩ := exists_runWithin_of_prefix hm
      obtain ⟨before, es, rest, more, hpulled, hevents, hmore, -⟩ := exists_pulled p k ts
      rw [hk] at hevents
      rcases List.eq_nil_or_concat more with rfl | ⟨later, y, rfl⟩
      · rw [List.append_nil] at hevents
        rw [hevents, hpulled.filterMap_found?]
        exact ⟨rest, hpulled⟩
      · -- behind the last entry that is pulled nothing would be handed out
        rw [List.concat_eq_append, ← List.append_assoc] at hevents
        obtain ⟨-, hy⟩ := List.append_inj' hevents rfl
        cases hy
        simp [Event.found?] at hmore

/-! ## Conversations -/

/-- What is asked for in a conversation with several walks under one provider. -/
inductive Request (ι : Type)
  /-- The next entry of a walk. -/
  | pull (i : ι)
  /-- The answer to a question. -/
  | ask (query : Query)
  deriving DecidableEq

/-- What is answered. -/
inductive Reply (ι ε : Type)
  /-- An entry of a walk, none if it has no more. -/
  | pulled (i : ι) (given? : Option ε)
  /-- The answer of the provider. -/
  | answered (query : Query) (answer : query.Answer ε)

variable {ι : Type} [DecidableEq ι] {walks : ι → List (Job ε)} {found : ι → List ε}
  {requests : List (Request ι)} {replies : List (Reply ι ε)}

/-- **A conversation with several walks under one provider**, in which entries of any of them are
pulled and questions are asked in between. A walk that has no more entries is asked again in vain. -/
inductive Conversation (p : Provider ε) :
    (ι → List (Job ε)) → List (Request ι) → List (Reply ι ε) → Prop
  /-- Nothing is asked for. -/
  | silent (walks : ι → List (Job ε)) : Conversation p walks [] []
  /-- An entry is asked for and found. -/
  | found {walks : ι → List (Job ε)} {i : ι} {n : Nat} {e : ε} {rest : List (Job ε)}
    {requests : List (Request ι)} {replies : List (Reply ι ε)}
    (h : (pull p n (walks i)).2 = .found e rest)
    (hrest : Conversation p (Function.update walks i rest) requests replies) :
    Conversation p walks (.pull i :: requests) (.pulled i (some e) :: replies)
  /-- An entry is asked for, but there are no more. -/
  | finished {walks : ι → List (Job ε)} {i : ι} {n : Nat} {requests : List (Request ι)}
    {replies : List (Reply ι ε)} (h : (pull p n (walks i)).2 = .finished)
    (hrest : Conversation p (Function.update walks i []) requests replies) :
    Conversation p walks (.pull i :: requests) (.pulled i none :: replies)
  /-- A question is asked. -/
  | ask {walks : ι → List (Job ε)} {query : Query} {requests : List (Request ι)}
    {replies : List (Reply ι ε)} (hrest : Conversation p walks requests replies) :
    Conversation p walks (.ask query :: requests) (.answered query (p.answer query) :: replies)

/-- The reply if it is that of a walk. -/
def Reply.of? (i : ι) : Reply ι ε → Option (Option ε)
  | .pulled j given? => if j = i then some given? else none
  | .answered _ _ => none

/-- The replies of a walk, in order. -/
def repliesOf (i : ι) (replies : List (Reply ι ε)) : List (Option ε) :=
  replies.filterMap (Reply.of? i)

/-- The entries of a list at the first places, none behind its end. -/
theorem map_getElem?_range_succ {α : Type} (xs : List α) (n : Nat) :
    (List.range (n + 1)).map (xs[·]?) = xs.head? :: (List.range n).map (xs.tail[·]?) := by
  rw [List.range_succ_eq_map, List.map_cons, List.map_map, List.head?_eq_getElem?]
  refine congrArg _ (List.map_congr_left fun i _ => ?_)
  rw [Function.comp_apply, List.getElem?_tail]

/-- A pull from one of several walks leaves the rest of its outcome, and the others as they are. -/
theorem yields_update (hfound : ∀ i, Yields p (walks i) (found i)) {i : ι} {rest : List (Job ε)}
    (hrest : Yields p rest (found i).tail) (j : ι) :
    Yields p (Function.update walks i rest j) (Function.update found i (found i).tail j) := by
  by_cases hj : j = i
  · rw [hj, Function.update_self, Function.update_self]
    exact hrest
  · rw [Function.update_of_ne hj, Function.update_of_ne hj]
    exact hfound j

/-- **Every conversation can be held** if the walks end. -/
theorem exists_conversation (hfound : ∀ i, Yields p (walks i) (found i))
    (requests : List (Request ι)) : ∃ replies, Conversation p walks requests replies := by
  induction requests generalizing walks found with
  | nil => exact ⟨[], .silent walks⟩
  | cons request requests ih =>
    cases request with
    | pull i =>
      rcases (hfound i).exists_pull with ⟨-, n, hn⟩ | ⟨e, -, rest, n, -, hn, -⟩
      · obtain ⟨replies, hreplies⟩ := ih (yields_update hfound ((hfound i).of_finished hn).2)
        exact ⟨_, .finished hn hreplies⟩
      · obtain ⟨replies, hreplies⟩ := ih (yields_update hfound ((hfound i).of_found hn).2)
        exact ⟨_, .found hn hreplies⟩
    | ask query =>
      obtain ⟨replies, hreplies⟩ := ih hfound
      exact ⟨_, .ask hreplies⟩

/-- The reply of a walk stands in front of its later ones. -/
theorem repliesOf_pulled {i j : ι} {given? : Option ε} (hhead : given? = (found j).head?)
    (hlater : repliesOf i replies = (List.range (requests.count (.pull i))).map
      ((Function.update found j (found j).tail i)[·]?)) :
    repliesOf i (.pulled j given? :: replies) =
      (List.range ((.pull j :: requests).count (.pull i))).map ((found i)[·]?) := by
  by_cases hj : j = i
  · subst hj
    rw [Function.update_self] at hlater
    rw [List.count_cons_self, map_getElem?_range_succ, ← hlater, ← hhead]
    simp [repliesOf, Reply.of?]
  · rw [Function.update_of_ne (Ne.symm hj)] at hlater
    rw [List.count_cons_of_ne (by simpa using hj), ← hlater]
    simp [repliesOf, Reply.of?, hj]

/-- **In every conversation each walk hands out its outcome**, and then answers that there is no more,
whatever is asked for in between. -/
theorem Conversation.repliesOf_eq (h : Conversation p walks requests replies)
    (hfound : ∀ i, Yields p (walks i) (found i)) (i : ι) :
    repliesOf i replies = (List.range (requests.count (.pull i))).map ((found i)[·]?) := by
  induction h generalizing found with
  | silent walks => rfl
  | @found walks j n e rest requests replies hpull _ ih =>
    obtain ⟨hhead, hrest⟩ := (hfound j).of_found hpull
    exact repliesOf_pulled hhead.symm (ih (yields_update hfound hrest))
  | @finished walks j n requests replies hpull _ ih =>
    obtain ⟨hhead, hrest⟩ := (hfound j).of_finished hpull
    exact repliesOf_pulled hhead.symm (ih (yields_update hfound hrest))
  | ask _ ih =>
    rw [List.count_cons_of_ne (by simp), ← ih hfound]
    rfl

/-! ## The main statement -/

/-- **Searches that rest between entries follow their enumerations.** Under every provider, a search can
be drained exactly if its enumeration comes to an end, once the calls may be nested deep enough; the
questions and the entries are the same. What has happened after some pulls is the beginning of the
enumeration that ends with the question by which the last of the entries was found. In a conversation
with several searches of a namespace each of them hands out the entries that it hands out alone, and
then nothing more. -/
theorem pulls_follow_enumeration :
    (∀ (ε : Type) (p : Provider ε) (fs : Flags) (pattern : Text) (events : List (Event ε))
        (es : List ε),
      (Drained p (searchJobs fs pattern) events es ↔
        (∃ depth, ∀ d ≥ depth, searchTrace p d fs pattern = ⟨events, true⟩) ∧
          events.filterMap Event.found? = es) ∧
      ((∃ rest, Pulled p (searchJobs fs pattern) events es rest) ↔
        (∃ depth, ∀ d ≥ depth, events <+: (searchTrace p d fs pattern).events) ∧
          events.filterMap Event.found? = es ∧ EndsInFind events)) ∧
    ∀ s : Namespace, s.Reachable → ∀ (ι : Type) [DecidableEq ι] (fs : ι → Flags) (pattern : ι → Text),
      ∃ found : ι → List Entry,
        (∀ i, ∃ events, Drained s.provider (searchJobs (fs i) (pattern i)) events (found i)) ∧
        ∀ requests, (∃ replies,
            Conversation s.provider (fun i => searchJobs (fs i) (pattern i)) requests replies) ∧
          ∀ replies, Conversation s.provider (fun i => searchJobs (fs i) (pattern i)) requests replies →
            ∀ i, repliesOf i replies =
              (List.range (requests.count (.pull i))).map ((found i)[·]?) := by
  constructor
  · intro ε p fs pattern events es
    have hreplays := fun depth => replays_searchJobs p depth fs pattern
    constructor
    · rw [drained_iff, exists_runWithin_iff hreplays]
    · rw [exists_pulled_iff (noneReady_searchJobs fs pattern), exists_prefix_iff hreplays]
  · intro s hs ι _ fs pattern
    have hwf := hs.isTree.1.descends_wellFounded
    choose found hfound using fun i => ends_searchJobs (p := s.provider) hwf (fs i) (pattern i)
    refine ⟨found, fun i => ?_, fun requests => ⟨exists_conversation hfound requests, ?_⟩⟩
    · obtain ⟨n, hend, hes⟩ := hfound i
      exact ⟨_, drained_iff.2 ⟨⟨n, Prod.ext rfl hend⟩, hes⟩⟩
    · intro replies hreplies
      exact hreplies.repliesOf_eq hfound

/-- Two searches of the small namespace take turns, one for `{x,x}` and one for `*`; a question is asked
in between. The first one finds the same entry twice, and then nothing more. -/
theorem Namespace.small_conversation :
    Namespace.small.Reachable ∧
      Conversation Namespace.small.provider
        (fun b => searchJobs Flags.standard (if b then "\x7bx,x\x7d".toList else ['*']))
        [.pull true, .pull false, .ask (.findFile ['x']), .pull true, .pull true, .pull false]
        [.pulled true (some ⟨"/d/x".toList, false⟩), .pulled false (some ⟨"/d/x".toList, false⟩),
          .answered (.findFile ['x']) (some ⟨"/d/x".toList, false⟩),
          .pulled true (some ⟨"/d/x".toList, false⟩), .pulled true none, .pulled false none] ∧
      ∃ events found, Drained Namespace.small.provider
          (searchJobs Flags.standard "\x7bx,x\x7d".toList) events found ∧
        [some ⟨"/d/x".toList, false⟩, some ⟨"/d/x".toList, false⟩, none] =
          (List.range 3).map (found[·]?) := by
  have htalk : Conversation Namespace.small.provider
      (fun b => searchJobs Flags.standard (if b then "\x7bx,x\x7d".toList else ['*']))
      [.pull true, .pull false, .ask (.findFile ['x']), .pull true, .pull true, .pull false]
      [.pulled true (some ⟨"/d/x".toList, false⟩), .pulled false (some ⟨"/d/x".toList, false⟩),
        .answered (.findFile ['x']) (some ⟨"/d/x".toList, false⟩),
        .pulled true (some ⟨"/d/x".toList, false⟩), .pulled true none, .pulled false none] := by
    have hfirst : (pull Namespace.small.provider 9
        (searchJobs Flags.standard "\x7bx,x\x7d".toList)).2 =
          .found ⟨"/d/x".toList, false⟩ (startJobs Flags.standard ['x']) := rfl
    have hsecond : (pull Namespace.small.provider 9 (startJobs Flags.standard ['x'])).2 =
        .found ⟨"/d/x".toList, false⟩ [] := rfl
    have hstar : (pull Namespace.small.provider 9 (searchJobs Flags.standard ['*'])).2 =
        .found ⟨"/d/x".toList, false⟩ [] := rfl
    have hover : (pull Namespace.small.provider 0 []).2 = .finished := rfl
    exact .found hfirst <| .found hstar <| .ask <| .found hsecond <| .finished hover <|
      .finished hover <| .silent _
  obtain ⟨found, halone, htalks⟩ := pulls_follow_enumeration.2 Namespace.small
    Namespace.reachable_small Bool (fun _ => Flags.standard)
    fun b => if b then "\x7bx,x\x7d".toList else ['*']
  obtain ⟨events, hevents⟩ := halone true
  exact ⟨Namespace.reachable_small, htalk, events, found true, hevents, (htalks _).2 _ htalk true⟩

end PathGlob
