import PathGlob.Proofs.Namespace.Growth
import PathGlob.Proofs.Traversal.Endings

/-! # Searches while a namespace grows
Entries are pulled from a search one by one, and between two pulls entries may be added to the
namespace. Nothing that the search would have found at the beginning is lost by that.

* **`Session`** — the entries that are pulled until there are no more, each with the namespace at its
  pull, while additions are made between the pulls.
* **`exists_session`** — whatever is added, the pulls come to an end.
* **`Session.sublist`** — nothing is lost; **`Session.answers`** says that every entry that is pulled
  is there at its pull.
* **`Namespace.Reachable.growth_loses_nothing`** — the main statement. -/

namespace PathGlob

variable {s s₀ : Namespace} {ts : List (Job Entry)} {batches : List (List Addition)}
  {pulled : List (Namespace × Entry)}

/-! ## Sessions -/

/-- **The pulls from a walk until no entry is left**, in a namespace that grows. The first batch of
additions is made before the first pull, the second one before the second pull, and so on; behind the
last batch nothing is added any more. Every entry stands with the namespace in which it was pulled. -/
inductive Session : Namespace → List (Job Entry) → List (List Addition) → List (Namespace × Entry) →
    Prop
  /-- No entry is left. -/
  | finished {s : Namespace} {ts : List (Job Entry)} {batches : List (List Addition)} {n : Nat}
    (h : (pull (s.addAll (batches.headD [])).provider n ts).2 = .finished) : Session s ts batches []
  /-- An entry is pulled. -/
  | found {s : Namespace} {ts rest : List (Job Entry)} {batches : List (List Addition)} {n : Nat}
    {e : Entry} {pulled : List (Namespace × Entry)}
    (h : (pull (s.addAll (batches.headD [])).provider n ts).2 = .found e rest)
    (hrest : Session (s.addAll (batches.headD [])) rest batches.tail pulled) :
    Session s ts batches ((s.addAll (batches.headD []), e) :: pulled)

/-- Without further additions the outcome of the walk is pulled. -/
theorem exists_session_nil {es : List Entry} (h : Yields s.provider ts es) :
    ∃ pulled, Session s ts [] pulled := by
  induction es generalizing ts with
  | nil =>
    rcases h.exists_pull with ⟨-, n, hn⟩ | ⟨e, fs, rest, n, he, -⟩
    · exact ⟨[], .finished hn⟩
    · cases he
  | cons e es ih =>
    rcases h.exists_pull with ⟨he, -⟩ | ⟨e', fs, rest, n, he, hn, hfs⟩
    · cases he
    · cases he
      obtain ⟨pulled, hpulled⟩ := ih hfs
      exact ⟨_, .found hn hpulled⟩

/-- **Whatever is added between them, the pulls come to an end.** -/
theorem exists_session (hs : s.Reachable) (hts : ∀ t ∈ ts, t.IsWhole)
    (batches : List (List Addition)) : ∃ pulled, Session s ts batches pulled := by
  induction batches generalizing s ts with
  | nil =>
    obtain ⟨es, hes⟩ := Ends.of_forall fun t ht => (hts t ht).ends hs.isTree.1.descends_wellFounded
    exact exists_session_nil hes
  | cons batch batches ih =>
    have hs' := hs.addAll batch
    obtain ⟨es, hes⟩ := Ends.of_forall fun t ht => (hts t ht).ends hs'.isTree.1.descends_wellFounded
    rcases hes.exists_pull with ⟨-, n, hn⟩ | ⟨e, fs, rest, n, -, hn, -⟩
    · exact ⟨[], .finished hn⟩
    · have hrest := (pull_found_of_next (fun t ht => ht.next _) hts hn).2
      obtain ⟨pulled, hpulled⟩ := ih hs' hrest
      exact ⟨_, .found hn hpulled⟩

/-! ## Nothing is lost -/

/-- **What the walk finds in a smaller namespace is pulled in the growing one**, in the same order.
The induction is on the session; at every pull the jobs that are left still find in the smaller
namespace what has not been handed out. -/
theorem Session.sublist (h : Session s ts batches pulled) (hs₀ : s₀.Reachable)
    (hgrows : s₀.GrowsTo s) (hts : ∀ t ∈ ts, t.IsWhole) {es : List Entry}
    (hes : Yields s₀.provider ts es) : es.Sublist (pulled.map Prod.snd) := by
  have hwf := hs₀.isTree.1.descends_wellFounded
  induction h generalizing es with
  | @finished s ts batches n h =>
    have hext := (hgrows.trans (s.growsTo_addAll (batches.headD []))).extends
    obtain ⟨fs, hfs, hsub⟩ := hext.pull hwf n hts hes
    rw [h] at hfs hsub
    rwa [hfs.unique Yields.nil] at hsub
  | @found s ts rest batches n e pulled h _ ih =>
    have hgrows' := hgrows.trans (s.growsTo_addAll (batches.headD []))
    obtain ⟨fs, hfs, hsub⟩ := hgrows'.extends.pull hwf n hts hes
    rw [h] at hfs hsub
    have hrest := (pull_found_of_next (fun t ht => ht.next _) hts h).2
    exact hsub.trans ((List.Sublist.refl [e]).append (ih hgrows' hrest hfs))

/-! ## Entries are there -/

/-- **The entry that a job hands out is there**: it is what is found at its own path. -/
def Job.IsThere (s : Namespace) : Job Entry → Prop
  | .deliver e => s.Answers e
  | _ => True

/-- A turn leads to such jobs. -/
theorem Job.IsThere.next (hs : s.IsTree) (t : Job Entry) :
    ∀ t' ∈ t.next s.provider, t'.IsThere s := by
  intro t' ht'
  cases t' with
  | deliver e =>
    rcases Job.found_of_deliver_mem_next ht' with ⟨path, h⟩ | ⟨path, h⟩
    · exact hs.answers_of_findDirectory h
    · exact hs.answers_of_findFile h
  | _ => trivial

/-- Such a job stays one when the namespace grows. -/
theorem Job.IsThere.grow {s' : Namespace} (h : s.GrowsTo s') {t : Job Entry} (ht : t.IsThere s) :
    t.IsThere s' := by
  cases t with
  | deliver e => exact h.answers ht
  | _ => trivial

/-- **Every entry that is pulled is there at its pull.** -/
theorem Session.answers (h : Session s ts batches pulled) (hs : s.Reachable)
    (hts : ∀ t ∈ ts, t.IsThere s) : ∀ x ∈ pulled, x.1.Answers x.2 := by
  induction h with
  | finished h => simp
  | @found s ts rest batches n e pulled h _ ih =>
    have hs' := hs.addAll (batches.headD [])
    have hts' : ∀ t ∈ ts, t.IsThere (s.addAll (batches.headD [])) :=
      fun t ht => (hts t ht).grow (s.growsTo_addAll _)
    obtain ⟨he, hrest⟩ :=
      pull_found_of_next (fun t _ => Job.IsThere.next hs'.isTree.1 t) hts' h
    intro x hx
    rcases List.mem_cons.1 hx with rfl | hx
    · exact he
    · exact ih hs' hrest x hx

/-- Nothing has to be there when a search begins. -/
theorem isThere_searchJobs (s : Namespace) (fs : Flags) (pattern : Text) :
    ∀ t ∈ (searchJobs fs pattern : List (Job Entry)), t.IsThere s := by
  intro t ht
  cases t with
  | deliver e => exact absurd ht (noneReady_searchJobs fs pattern e)
  | _ => trivial

/-! ## Growth loses nothing -/

/-- **Growth loses nothing.** What a search finds in a namespace is pulled from it in the same order,
with further entries in between, whatever is added between the pulls; every entry that is pulled is
then what is found at its own path; and the pulls come to an end. In particular the search of the
namespace that has grown finds all that the search of the smaller one finds. -/
theorem Namespace.Reachable.growth_loses_nothing (hs : s.Reachable) (fs : Flags) (pattern : Text) :
    ∃ es, Yields s.provider (searchJobs fs pattern) es ∧
      (∀ batches, (∃ pulled, Session s (searchJobs fs pattern) batches pulled) ∧
        ∀ pulled, Session s (searchJobs fs pattern) batches pulled →
          es.Sublist (pulled.map Prod.snd) ∧ ∀ x ∈ pulled, x.1.Answers x.2) ∧
      ∀ additions, ∃ more, Yields (s.addAll additions).provider (searchJobs fs pattern) more ∧
        es.Sublist more := by
  have hwf := hs.isTree.1.descends_wellFounded
  have hwhole := isWhole_searchJobs (ε := Entry) fs pattern
  obtain ⟨es, hes⟩ := ends_searchJobs hwf fs pattern
  refine ⟨es, hes, fun batches => ⟨exists_session hs hwhole batches, ?_⟩, fun additions => ?_⟩
  · intro pulled hpulled
    exact ⟨hpulled.sublist hs (.refl s) hwhole hes,
      hpulled.answers hs (isThere_searchJobs s fs pattern)⟩
  · obtain ⟨more, hmore⟩ :=
      ends_searchJobs (hs.addAll additions).isTree.1.descends_wellFounded fs pattern
    exact ⟨more, hmore, (s.growsTo_addAll additions).extends.sublist hwf hwhole hes hmore⟩

/-- In the small namespace the search of `{x,y}` finds `/d/x`. If the file `/d/y` is added behind that
pull, it is pulled next; the directory `/d/x/z` cannot be added, since there is a file on the way. -/
theorem Namespace.small_growth_loses_nothing :
    Namespace.small.Reachable ∧
      Session Namespace.small (searchJobs Flags.standard "\x7bx,y\x7d".toList)
        [[], [.file ['y'], .directory "x/z".toList]]
        [(Namespace.small, ⟨"/d/x".toList, false⟩),
          (Namespace.small.add (.file ['y']), ⟨"/d/y".toList, false⟩)] ∧
      ∃ es, Yields Namespace.small.provider (searchJobs Flags.standard "\x7bx,y\x7d".toList) es ∧
        es.Sublist [⟨"/d/x".toList, false⟩, ⟨"/d/y".toList, false⟩] := by
  have hsession : Session Namespace.small (searchJobs Flags.standard "\x7bx,y\x7d".toList)
      [[], [.file ['y'], .directory "x/z".toList]]
      [(Namespace.small, ⟨"/d/x".toList, false⟩),
        (Namespace.small.add (.file ['y']), ⟨"/d/y".toList, false⟩)] :=
    Session.found (n := 9) rfl (Session.found (n := 9) rfl (Session.finished (n := 9) rfl))
  obtain ⟨es, hes, hsessions, -⟩ :=
    Namespace.reachable_small.growth_loses_nothing Flags.standard "\x7bx,y\x7d".toList
  exact ⟨Namespace.reachable_small, hsession, es, hes, ((hsessions _).2 _ hsession).1⟩

end PathGlob
