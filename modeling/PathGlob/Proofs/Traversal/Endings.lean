import Mathlib.Order.WellFounded
import PathGlob.Proofs.Namespace.Walks
import PathGlob.Search

/-! # Endings of walks and searches
A walk ends, after finitely many questions, under every provider in which nobody can go down from
directory to directory for ever; namespaces are such providers.

* **`Provider.IsEndlessDescent`** — a way down without end; **`Provider.descends_wellFounded_iff`**
  says that there is none exactly if the steps down are well-founded.
* **`Finishes`** — a walk comes to an end, and the number of its questions has a bound.
* **`noneReady_searchJobs`** — no entry is ready to be handed out when a search begins.
* **`walks_finish`** — the main statement, for walks and searches. -/

namespace PathGlob

variable {ε : Type} {p : Provider ε}

/-! ## Ways down -/

/-- **A way down without end**: all directories on it are found, and each is at the path of the one
before joined with the name of one of its children. -/
def Provider.IsEndlessDescent (p : Provider ε) (d : Nat → Text) : Prop :=
  ∀ i, (p.findDirectory (d i)).isSome ∧
    ∃ x ∈ p.children (d i), d (i + 1) = joinPath (d i) (p.entryName x)

/-- **There is no way down without end exactly if the steps down are well-founded.** -/
theorem Provider.descends_wellFounded_iff :
    WellFounded p.Descends ↔ ¬∃ d, p.IsEndlessDescent d := by
  rw [wellFounded_iff_isEmpty_descending_chain, isEmpty_subtype, not_exists]
  refine forall_congr' fun d => not_congr ?_
  constructor
  · intro hd i
    exact ⟨(hd i).1, (hd i).2.2⟩
  · intro hd i
    exact ⟨(hd i).1, (hd (i + 1)).1, (hd i).2⟩

/-! ## Questions -/

/-- Whether an event is a question to the provider. -/
def Event.isQuestion : Event ε → Bool
  | .asked _ _ => true
  | _ => false

/-- A turn asks no more than one question. -/
theorem Action.countP_run_le (a : Action ε) (p : Provider ε) :
    (a.run p).1.countP Event.isQuestion ≤ 1 := by
  cases a with
  | ask note? query proceed =>
    cases note? with
    | none => exact Nat.le_refl 1
    | some n => exact Nat.le_refl 1
  | found e => exact Nat.zero_le 1
  | say n => exact Nat.zero_le 1

/-- A run asks no more questions than it has steps. -/
theorem countP_runWithin_le (p : Provider ε) (n : Nat) (ts : List (Job ε)) :
    (runWithin p n ts).1.countP Event.isQuestion ≤ n := by
  induction n generalizing ts with
  | zero => exact Nat.le_refl 0
  | succ n ih =>
    cases ts with
    | nil => exact Nat.zero_le _
    | cons t ts =>
      rw [runWithin_cons, List.countP_append]
      have hturn : (t.events p).countP Event.isQuestion ≤ 1 := Action.countP_run_le _ p
      have hrest := ih (t.next p ++ ts)
      omega

/-- **The walk comes to an end**: after a number of steps nothing remains to be done, and no run of it,
however long, asks more questions than that. -/
def Finishes (p : Provider ε) (ts : List (Job ε)) : Prop :=
  ∃ n, (runWithin p n ts).2 = [] ∧ ∀ m, (runWithin p m ts).1.countP Event.isQuestion ≤ n

/-- A walk with an outcome comes to an end. -/
theorem Ends.finishes {ts : List (Job ε)} (h : Ends p ts) : Finishes p ts := by
  obtain ⟨-, n, hend, -⟩ := h
  refine ⟨n, hend, fun m => ?_⟩
  rcases Nat.le_total m n with hm | hm
  · exact (countP_runWithin_le p m ts).trans hm
  · rw [runWithin_of_le hm hend]
    exact countP_runWithin_le p n ts

/-! ## Searches -/

/-- A search begins with a note or with the walks of its alternatives. -/
theorem cases_of_mem_searchJobs {fs : Flags} {pattern : Text} {t : Job ε}
    (ht : t ∈ searchJobs fs pattern) :
    (∃ n, t = .report n) ∨ ∃ alternative, t ∈ startJobs fs alternative := by
  unfold searchJobs at ht
  split at ht
  · cases ht
  · split at ht
    · exact .inl ⟨_, List.mem_singleton.1 ht⟩
    · obtain ⟨alternative, -, ht⟩ := List.mem_flatMap.1 ht
      exact .inr ⟨alternative, ht⟩

/-- The jobs with which a search begins are jobs of walks. -/
theorem isWhole_searchJobs (fs : Flags) (pattern : Text) :
    ∀ t ∈ (searchJobs fs pattern : List (Job ε)), t.IsWhole := by
  intro t ht
  rcases cases_of_mem_searchJobs ht with ⟨n, rfl⟩ | ⟨alternative, ht⟩
  · trivial
  · exact isWhole_startJobs fs alternative t ht

/-- No entry is ready to be handed out. -/
def NoneReady (ts : List (Job ε)) : Prop := ∀ e, .deliver e ∉ ts

/-- No entry is ready when a search begins. -/
theorem noneReady_searchJobs (fs : Flags) (pattern : Text) :
    NoneReady (searchJobs fs pattern : List (Job ε)) := by
  intro e he
  rcases cases_of_mem_searchJobs he with ⟨n, h⟩ | ⟨alternative, h⟩
  · cases h
  · rcases cases_of_mem_startJobs h with ⟨s, path, h⟩ | ⟨s, base, rest, h, -⟩ <;> cases h

/-- **Every search ends** under a provider in which no chain of directories goes down for ever. -/
theorem ends_searchJobs (hp : WellFounded p.Descends) (fs : Flags) (pattern : Text) :
    Ends p (searchJobs fs pattern) :=
  Ends.of_forall fun t ht => (isWhole_searchJobs fs pattern t ht).ends hp

/-- **Walks and searches come to an end.** They do so under every provider without a way down that
has no end, for all patterns and flags; and no namespace that came about by additions has such a
way. -/
theorem walks_finish :
    (∀ (ε : Type) (p : Provider ε), (¬∃ d, p.IsEndlessDescent d) → ∀ (fs : Flags) (pattern : Text),
      Finishes p (startJobs fs pattern) ∧ Finishes p (searchJobs fs pattern)) ∧
    ∀ s : Namespace, s.Reachable → (¬∃ d, s.provider.IsEndlessDescent d) ∧
      ∀ (fs : Flags) (pattern : Text),
        Finishes s.provider (startJobs fs pattern) ∧
          Finishes s.provider (searchJobs fs pattern) := by
  have hall : ∀ (ε : Type) (p : Provider ε), WellFounded p.Descends →
      ∀ (fs : Flags) (pattern : Text),
        Finishes p (startJobs fs pattern) ∧ Finishes p (searchJobs fs pattern) :=
    fun _ _ hp fs pattern =>
      ⟨(ends_startJobs hp fs pattern).finishes, (ends_searchJobs hp fs pattern).finishes⟩
  constructor
  · intro ε p hp
    exact hall ε p (Provider.descends_wellFounded_iff.2 hp)
  · intro s hs
    have hwf := hs.isTree.1.descends_wellFounded
    exact ⟨Provider.descends_wellFounded_iff.1 hwf, hall Entry s.provider hwf⟩

/-- A hierarchy in which every directory has a child named `a`, and the paths of directories have no
more than nine characters. -/
def shallow : Provider Text where
  pathOf := id
  findDirectory path := if path.length ≤ 9 then some path else none
  findFile _ := none
  children _ := [['a']]

/-- Below a directory the paths become longer, so there is no way down without end. -/
theorem not_isEndlessDescent_shallow : ¬∃ d, shallow.IsEndlessDescent d := by
  rintro ⟨d, hd⟩
  have hlong : ∀ i, i ≤ (d i).length := by
    intro i
    induction i with
    | zero => exact Nat.zero_le _
    | succ i ih =>
      obtain ⟨x, hx, hpath⟩ := (hd i).2
      have hname : shallow.entryName x = ['a'] := by
        obtain rfl := List.mem_singleton.1 hx
        rfl
      rw [hpath, hname, joinPath]
      split
      · rw [List.length_append]
        simp only [List.length_singleton]
        omega
      · rw [List.length_append]
        simp only [List.length_cons]
        omega
  have hfound := (hd 10).1
  have hten := hlong 10
  simp only [shallow] at hfound
  split at hfound
  · omega
  · cases hfound

/-- The search of `**/../{a,**}/**` ends there, and so does the one of the small namespace. -/
theorem shallow_walks_finish :
    (¬∃ d, shallow.IsEndlessDescent d) ∧
      Finishes shallow (searchJobs (Flags.ofFlag .dotMatch) "**/../\x7ba,**\x7d/**".toList) ∧
      Namespace.small.Reachable ∧
      Finishes Namespace.small.provider
        (searchJobs (Flags.ofFlag .dotMatch) "**/../\x7ba,**\x7d/**".toList) :=
  ⟨not_isEndlessDescent_shallow,
    (walks_finish.1 Text shallow not_isEndlessDescent_shallow _ _).2,
    Namespace.reachable_small,
    ((walks_finish.2 Namespace.small Namespace.reachable_small).2 _ _).2⟩

end PathGlob
