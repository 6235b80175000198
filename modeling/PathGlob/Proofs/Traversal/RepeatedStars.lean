import Mathlib.Logic.Function.Iterate
import Mathlib.Logic.Relation
import PathGlob.Proofs.Fronts
import PathGlob.Proofs.Names
import PathGlob.Proofs.Walk.Termination

/-! # Repeated `**`
A `**` is taken for no directory only if the segment in front of it was not just taken for none. Two
of them in a row therefore stand for one directory or more, not for any number: they find what a `**`
with a star behind it finds.

* **`finds_starred_iff`**, **`finds_starred_again_iff`** — what a `**` in front of a pattern finds.
* **`finds_starred_starred_iff`** — two of them find what one finds with a star behind it.
* **`Finds.behind_front`** — more found behind a front is more found.
* **`Namespace.Reachable.yields_starred_starred`** — the law for walks, with the exact condition on
  which a second `**` changes nothing. -/

namespace PathGlob

variable {ε : Type} {p : Provider ε} {sc : Scope} {base path r : Text} {e : ε}

/-! ## Steps down -/

/-- **A step that a `**` takes** from a directory down to an entry in it. -/
def Scope.Enters (sc : Scope) (p : Provider ε) (base path : Text) : Prop :=
  (p.findDirectory (sc.queryPath base)).isSome ∧ ∃ x ∈ p.children (sc.queryPath base),
    nameMatches sc.flags doubleStar (p.entryName x) = true ∧
      path = joinPath base (sc.nameText (p.entryName x))

/-- One step down or more. -/
abbrev Scope.Below (sc : Scope) (p : Provider ε) : Text → Text → Prop :=
  Relation.TransGen (sc.Enters p)

/-! ## Parts that are stars -/

/-- A `**` in front of a pattern is its first part. -/
theorem Part.next_starred (fs : Flags) (r : Text) :
    Part.next fs.escapes (starred r) = ⟨doubleStar, true, some r⟩ :=
  Part.next_segment_cons (wildSegment_doubleStar fs) r

/-- A star in front of a pattern is its first part. -/
theorem Part.next_star (fs : Flags) (r : Text) :
    Part.next fs.escapes ('*' :: '/' :: r) = ⟨['*'], true, some r⟩ :=
  Part.next_segment_cons (wildSegment_star fs) r

/-- A segment that does not begin with a dot and is not the last one is tried on listed names
alone. -/
theorem specialJobs_of_rest {pattern seg : Text}
    (h : Part.next sc.flags.escapes pattern = ⟨seg, true, some r⟩) (hseg : isHidden seg = false) :
    (specialJobs sc base pattern : List (Job ε)) = [] := by
  unfold specialJobs
  rw [h]
  simp [triesSpecials, hseg]

/-! ## What stars find -/

/-- A visit that finds something is that of a directory. -/
theorem Finds.isSome {pattern : Text} {again : Bool} (h : Finds p (.visit sc base pattern again) e) :
    (p.findDirectory (sc.queryPath base)).isSome := (finds_visit_iff.1 h).1

/-- For a segment with a wildcard, the visit of a directory finds what the listing finds. -/
theorem Finds.visit_of_enumerate {pattern : Text}
    (hdir : (p.findDirectory (sc.queryPath base)).isSome)
    (hw : (Part.next sc.flags.escapes pattern).wild = true)
    (h : Finds p (.enumerate sc base pattern) e) (again : Bool) :
    Finds p (.visit sc base pattern again) e := by
  refine finds_visit_iff.2 ⟨hdir, .enumerate sc base pattern, ?_, h⟩
  rw [mem_visitJobs_iff, if_pos hw]
  exact .inr rfl

/-- **A `**` that was just taken for no directory finds no more than otherwise.** -/
theorem Finds.of_again {pattern : Text} (h : Finds p (.visit sc base pattern true) e) :
    Finds p (.visit sc base pattern false) e := by
  obtain ⟨hdir, t, ht, he⟩ := finds_visit_iff.1 h
  refine finds_visit_iff.2 ⟨hdir, t, ?_, he⟩
  rw [mem_visitJobs_iff] at ht ⊢
  split at ht
  · rename_i hw
    rw [if_pos hw]
    rcases ht with ⟨-, hf, -⟩ | ht
    · cases hf
    · exact .inr ht
  · rename_i hw
    rwa [if_neg hw]

/-- A star finds what the rest finds one step down. -/
theorem finds_star_iff {again : Bool} :
    Finds p (.visit sc base ('*' :: '/' :: r) again) e ↔
      ∃ path, sc.Enters p base path ∧ Finds p (.visit sc path r false) e := by
  have hpart := Part.next_star sc.flags r
  have hstar : ['*'] ≠ doubleStar := by decide
  constructor
  · intro h
    obtain ⟨hdir, t, ht, he⟩ := finds_visit_iff.1 h
    rw [mem_visitJobs_iff, hpart] at ht
    rcases ht with ⟨hd, -⟩ | rfl
    · exact absurd hd hstar
    · -- the star is not tried on the directory itself and its parent, since more follows
      rcases finds_enumerate_iff.1 he with ⟨x, hx, t, ht, he⟩ | ⟨t, ht, -⟩
      · rw [mem_nameJobs_iff, hpart] at ht
        obtain ⟨hm, rfl | ⟨hd, -⟩⟩ := ht
        · exact ⟨_, ⟨hdir, x, hx, by rwa [← nameMatches_star], rfl⟩, he⟩
        · exact absurd hd hstar
      · rw [specialJobs_of_rest hpart rfl] at ht
        cases ht
  · rintro ⟨path, ⟨hdir, x, hx, hm, rfl⟩, he⟩
    apply Finds.visit_of_enumerate hdir (by rw [hpart])
    refine finds_enumerate_iff.2 (.inl ⟨x, hx, _, ?_, he⟩)
    rw [mem_nameJobs_iff, hpart]
    exact ⟨by rwa [nameMatches_star], .inl rfl⟩

/-- What the listing for a `**` leads to, the rest leads to below the directory. The induction is on
the turns; the listing is repeated for every directory on the way down. -/
theorem Finds.exists_below {t : Job ε} (h : Finds p t e) :
    (∀ base, t = .visit sc base (starred r) true →
      ∃ path, sc.Below p base path ∧ Finds p (.visit sc path r false) e) ∧
    (∀ base, t = .enumerate sc base (starred r) → (p.findDirectory (sc.queryPath base)).isSome →
      ∃ path, sc.Below p base path ∧ Finds p (.visit sc path r false) e) := by
  have hpart := Part.next_starred sc.flags r
  induction h with
  | own ho =>
    constructor
    · rintro base rfl
      cases ho
    · rintro base rfl -
      cases ho
  | later ht he ih =>
    constructor
    · rintro base rfl
      rw [Job.next_visit] at ht
      split at ht
      · rename_i hdir
        rw [mem_visitJobs_iff, hpart] at ht
        rcases ht with ⟨-, hf, -⟩ | rfl
        · cases hf
        · exact ih.2 base rfl hdir
      · cases ht
    · rintro base rfl hdir
      rw [Job.next_enumerate, specialJobs_of_rest hpart rfl, List.append_nil, List.mem_flatMap] at ht
      obtain ⟨name, hname, ht⟩ := ht
      obtain ⟨x, hx, rfl⟩ := List.mem_map.1 hname
      rw [mem_nameJobs_iff, hpart] at ht
      obtain ⟨hm, rfl | ⟨-, rfl⟩⟩ := ht
      · exact ⟨_, .single ⟨hdir, x, hx, hm, rfl⟩, he⟩
      · obtain ⟨path, hbelow, hpath⟩ := ih.1 _ rfl
        exact ⟨path, .head ⟨hdir, x, hx, hm, rfl⟩ hbelow, hpath⟩

/-- **A `**` that was just taken for no directory** finds what the rest finds below. -/
theorem finds_starred_again_iff :
    Finds p (.visit sc base (starred r) true) e ↔
      ∃ path, sc.Below p base path ∧ Finds p (.visit sc path r false) e := by
  refine ⟨fun h => h.exists_below.1 base rfl, ?_⟩
  rintro ⟨path, hbelow, h⟩
  have hpart := Part.next_starred sc.flags r
  -- a step down is a turn of the visit and one of the listing
  have hstep : ∀ {base path : Text} {t : Job ε}, sc.Enters p base path →
      t = .visit sc path r false ∨ t = .visit sc path (starred r) true → Finds p t e →
      Finds p (.visit sc base (starred r) true) e := by
    rintro base path t ⟨hdir, x, hx, hm, rfl⟩ ht he
    apply Finds.visit_of_enumerate hdir (by rw [hpart])
    refine finds_enumerate_iff.2 (.inl ⟨x, hx, t, ?_, he⟩)
    rw [mem_nameJobs_iff, hpart]
    exact ⟨hm, ht.imp_right fun ht => ⟨rfl, ht⟩⟩
  induction hbelow using Relation.TransGen.head_induction_on with
  | single henters => exact hstep henters (.inl rfl) h
  | head henters _ ih => exact hstep henters (.inr rfl) ih

/-- **A `**` finds what the rest finds** in the directory, the `**` being taken for none, and
below. -/
theorem finds_starred_iff :
    Finds p (.visit sc base (starred r) false) e ↔
      Finds p (.visit sc base r true) e ∨
        ∃ path, sc.Below p base path ∧ Finds p (.visit sc path r false) e := by
  have hpart := Part.next_starred sc.flags r
  rw [← finds_starred_again_iff]
  constructor
  · intro h
    obtain ⟨hdir, t, ht, he⟩ := finds_visit_iff.1 h
    rw [mem_visitJobs_iff, hpart] at ht
    rcases ht with ⟨-, -, rfl⟩ | rfl
    · exact .inl he
    · exact .inr (he.visit_of_enumerate hdir (by rw [hpart]) true)
  · rintro (h | h)
    · refine finds_visit_iff.2 ⟨h.isSome, _, ?_, h⟩
      rw [mem_visitJobs_iff, hpart]
      exact .inl ⟨rfl, rfl, rfl⟩
    · exact h.of_again

/-- Two `**` find what the rest finds below. -/
theorem finds_starred_starred_iff_below :
    Finds p (.visit sc base (starred (starred r)) false) e ↔
      ∃ path, sc.Below p base path ∧ Finds p (.visit sc path r false) e := by
  rw [finds_starred_iff, finds_starred_again_iff]
  constructor
  · rintro (h | ⟨path, hbelow, h⟩)
    · exact h
    · rcases finds_starred_iff.1 h with h | ⟨path', hbelow', h⟩
      · exact ⟨path, hbelow, h.of_again⟩
      · exact ⟨path', hbelow.trans hbelow', h⟩
  · exact .inl

/-- **Two `**` find what one finds with a star behind it.** -/
theorem finds_starred_starred_iff :
    Finds p (.visit sc base (starred (starred r)) false) e ↔
      Finds p (.visit sc base (starred ('*' :: '/' :: r)) false) e := by
  rw [finds_starred_starred_iff_below, finds_starred_iff]
  simp only [finds_star_iff]
  constructor
  · rintro ⟨path, hbelow, h⟩
    -- the star takes the last step down
    cases hbelow with
    | single henters => exact .inl ⟨path, henters, h⟩
    | tail hbelow henters => exact .inr ⟨_, hbelow, path, henters, h⟩
  · rintro (⟨path, henters, h⟩ | ⟨path, hbelow, path', henters, h⟩)
    · exact ⟨path, .single henters, h⟩
    · exact ⟨path', hbelow.tail henters, h⟩

/-! ## Behind a front -/

/-- **What is found behind a front hangs on what is found where the front ends.** The induction is on
the turns. The front does not end in a `**`, so that what stands behind it is never visited as what
follows a `**` taken for no directory. -/
theorem Finds.behind_front {w w' : Text} {t : Job ε} (h : Finds p t e)
    (hw : ∀ base, Finds p (.visit sc base ('*' :: w) false) e →
      Finds p (.visit sc base ('*' :: w') false) e) :
    (∀ base front again, Front front → (front = [] → again = false) →
      t = .visit sc base (front ++ '*' :: w) again →
        Finds p (.visit sc base (front ++ '*' :: w') again) e) ∧
    (∀ base front, Front front → front ≠ [] → t = .enumerate sc base (front ++ '*' :: w) →
      Finds p (.enumerate sc base (front ++ '*' :: w')) e) := by
  induction h with
  | own ho =>
    constructor
    · rintro base front again - - rfl
      cases ho
    · rintro base front - - rfl
      cases ho
  | @later t t' e ht he ih =>
    have ih := ih hw
    constructor
    · rintro base front again hfront hagain rfl
      by_cases hne : front = []
      · -- the front ends here
        subst hne
        obtain rfl := hagain rfl
        exact hw base (.later ht he)
      obtain ⟨text, wild, front', hsplit, hfront', hnext⟩ := hfront.exists_next hne sc.flags
      rw [Job.next_visit] at ht
      split at ht
      · rename_i hdir
        rw [mem_visitJobs_iff, hnext] at ht
        have hjob : ∀ t, t ∈ visitJobs sc base (front ++ '*' :: w') again → Finds p t e →
            Finds p (.visit sc base (front ++ '*' :: w') again) e := fun t ht he =>
          finds_visit_iff.2 ⟨hdir, t, ht, he⟩
        simp only [mem_visitJobs_iff, hnext] at hjob
        cases wild with
        | false =>
          obtain rfl : t' = .visit sc _ (front' ++ '*' :: w) false := ht
          exact hjob _ rfl (ih.1 _ front' false hfront' (fun _ => rfl) rfl)
        | true =>
          rcases ht with ⟨hstar, hagain, rfl⟩ | rfl
          · apply hjob _ (.inl ⟨hstar, hagain, rfl⟩)
            apply ih.1 _ front' true hfront' _ rfl
            intro hnil
            -- otherwise the front would end in a `**`
            refine absurd ⟨[], .inl rfl, ?_⟩ hfront.not_starred
            rw [hsplit, hnil, show text = doubleStar from hstar]
            rfl
          · exact hjob _ (.inr rfl) (ih.2 _ front hfront hne rfl)
      · cases ht
    · rintro base front hfront hne rfl
      obtain ⟨text, wild, front', hsplit, hfront', hnext⟩ := hfront.exists_next hne sc.flags
      rw [Job.next_enumerate, List.mem_append, List.mem_flatMap] at ht
      refine finds_enumerate_iff.2 ?_
      simp only [mem_nameJobs_iff, mem_specialJobs_iff, hnext] at ht ⊢
      rcases ht with ⟨name, hname, hm, ht⟩ | ⟨htries, name, hname, hm, rfl⟩
      · obtain ⟨x, hx, rfl⟩ := List.mem_map.1 hname
        refine .inl ⟨x, hx, ?_⟩
        rcases ht with rfl | ⟨hstar, rfl⟩
        · exact ⟨_, ⟨hm, .inl rfl⟩, ih.1 _ front' false hfront' (fun _ => rfl) rfl⟩
        · exact ⟨_, ⟨hm, .inr ⟨hstar, rfl⟩⟩,
            ih.1 _ front true hfront (fun hnil => absurd hnil hne) rfl⟩
      · exact .inr ⟨_, ⟨htries, name, hname, hm, rfl⟩,
          ih.1 _ front' false hfront' (fun _ => rfl) rfl⟩

/-! ## Patterns -/

/-- What is put behind a pattern is put behind the `**` in front of it too. -/
theorem iterate_starred_append (i : Nat) (t u : Text) :
    starred^[i] t ++ u = starred^[i] (t ++ u) := by
  induction i generalizing t with
  | zero => rfl
  | succ i ih =>
    rw [Function.iterate_succ_apply, Function.iterate_succ_apply, ih]
    simp [starred]

/-- A `**` in front brings in no drive mark. -/
theorem colon_not_mem_iterate_starred (i : Nat) {t : Text} (h : ':' ∉ t) : ':' ∉ starred^[i] t := by
  induction i with
  | zero => exact h
  | succ i ih =>
    rw [Function.iterate_succ_apply']
    simpa [starred, doubleStar] using ih

/-- **Every front is one that does not end in a `**`, with some `**` behind it.** -/
theorem IsFront.exists_front {t : Text} (h : IsFront t) (hb : '\\' ∉ t) (hc : ':' ∉ t) :
    ∃ front i, Front front ∧ t = front ++ starred^[i] [] := by
  induction hn : t.length using Nat.strongRecOn generalizing t with
  | _ n shorter =>
    by_cases hstar : ∃ u, IsFront u ∧ t = u ++ starred []
    · -- what stands in front of the last `**` is shorter
      obtain ⟨u, hu, rfl⟩ := hstar
      have hlen : u.length < n := by
        rw [← hn, List.length_append]
        simp [starred]
      obtain ⟨front, i, hfront, rfl⟩ := shorter _ hlen hu (fun h => hb (by simp [h]))
        (fun h => hc (by simp [h])) rfl
      exact ⟨front, i + 1, hfront, by rw [List.append_assoc, iterate_starred_append]; rfl⟩
    · exact ⟨t, 0, ⟨h, hb, hc, hstar⟩, by simp⟩

/-- **More found where a front ends is more found by the walk.** -/
theorem exists_finds_of_front {front u u' : Text} (hfront : Front front) (fs : Flags)
    (hne : u ≠ [] ∧ u' ≠ []) (hend : endsIn '/' u = endsIn '/' u') (hcolon : ':' ∉ u ∧ ':' ∉ u')
    (hmore : ∀ sc base, Finds p (.visit sc base (starred u) false) e →
      Finds p (.visit sc base (starred u') false) e)
    (h : ∃ t ∈ startJobs fs (front ++ starred u), Finds p t e) :
    ∃ t ∈ startJobs fs (front ++ starred u'), Finds p t e := by
  have hends : ∀ v : Text, v ≠ [] → endsIn '/' (front ++ starred v) = endsIn '/' v := by
    intro v hv
    rw [endsIn_append _ (by simp [starred]), starred, endsIn_append_cons _ _ hv]
  -- both walks begin with a visit behind the same part of the front
  obtain ⟨sc, base, front', -, hfront', hstart⟩ := hfront.exists_start ε fs (endsIn '/' u)
  obtain ⟨t, ht, he⟩ := h
  have hfirst : t = .visit sc base (front' ++ starred u) false := by
    have hjobs := hstart ('*' :: '/' :: u) (hends u hne.1) (by simp) (by simp [hcolon.1])
    exact List.mem_singleton.1 (hjobs ▸ ht)
  refine ⟨_, ?_, (he.behind_front (hmore sc)).1 base front' false hfront' (fun _ => rfl) hfirst⟩
  have hjobs := hstart ('*' :: '/' :: u') ((hends u' hne.2).trans hend.symm) (by simp)
    (by simp [hcolon.2])
  exact hjobs ▸ List.mem_singleton_self _

/-- **Two `**` in a row stand for one directory or more.** They find what one finds with a star behind
it, which is no more than a single `**` finds; and a second `**` changes nothing exactly if all that
the single one finds is found with the star behind it, too. Of what stands in front of the two, the
`**` at its end come behind the star. -/
theorem Namespace.Reachable.yields_starred_starred {s : Namespace} (hs : s.Reachable) (fs : Flags)
    {A B : Text} (hA : IsFront A) (hB : B ≠ []) (hb : '\\' ∉ A ++ B) (hc : ':' ∉ A ++ B) :
    ∃ front i, Front front ∧ A = front ++ starred^[i] [] ∧ ∃ doubled single lower,
      Yields s.provider (startJobs fs (A ++ starred (starred B))) doubled ∧
      Yields s.provider (startJobs fs (A ++ starred B)) single ∧
      Yields s.provider (startJobs fs (front ++ starred ('*' :: '/' :: starred^[i] B))) lower ∧
      (∀ e, e ∈ doubled ↔ e ∈ lower) ∧ (∀ e ∈ doubled, e ∈ single) ∧
      ((∀ e, e ∈ doubled ↔ e ∈ single) ↔ ∀ e ∈ single, e ∈ lower) := by
  obtain ⟨front, i, hfront, rfl⟩ := IsFront.exists_front hA (fun h => hb (by simp [h]))
    (fun h => hc (by simp [h]))
  obtain ⟨doubled, hdoubled⟩ := hs.ends_startJobs fs (front ++ starred^[i] [] ++ starred (starred B))
  obtain ⟨single, hsingle⟩ := hs.ends_startJobs fs (front ++ starred^[i] [] ++ starred B)
  obtain ⟨lower, hlower⟩ :=
    hs.ends_startJobs fs (front ++ starred ('*' :: '/' :: starred^[i] B))
  refine ⟨front, i, hfront, rfl, doubled, single, lower, hdoubled, hsingle, hlower, ?_⟩
  -- the repeated `**` at the end of what stands in front may be written behind the new ones
  have hmove : ∀ t, front ++ starred^[i] [] ++ starred t = front ++ starred (starred^[i] t) := by
    intro t
    rw [List.append_assoc, iterate_starred_append, List.nil_append, ← Function.iterate_succ_apply,
      Function.iterate_succ_apply']
  rw [hmove] at hdoubled hsingle
  rw [← Function.iterate_succ_apply, Function.iterate_succ_apply'] at hdoubled
  have hcolon : ':' ∉ starred^[i] B := colon_not_mem_iterate_starred i fun h => hc (by simp [h])
  have hne : starred^[i] B ≠ [] := by
    rw [← List.nil_append B, ← iterate_starred_append]
    exact List.append_ne_nil_of_right_ne_nil _ hB
  generalize starred^[i] B = r at hdoubled hsingle hlower hcolon hne
  have hends : endsIn '/' (starred r) = endsIn '/' r := endsIn_append_cons doubleStar '/' hne
  have hends' : endsIn '/' ('*' :: '/' :: r) = endsIn '/' r := endsIn_append_cons ['*'] '/' hne
  have hcolons : ':' ∉ starred r ∧ ':' ∉ '*' :: '/' :: r := by simp [starred, doubleStar, hcolon]
  -- both patterns are compared behind the front
  have heq : ∀ e, e ∈ doubled ↔ e ∈ lower := by
    intro e
    rw [hdoubled.mem_iff, hlower.mem_iff]
    constructor
    · exact exists_finds_of_front hfront fs (by simp [starred]) (hends.trans hends'.symm) hcolons
        fun sc base => finds_starred_starred_iff.1
    · exact exists_finds_of_front hfront fs (by simp [starred]) (hends'.trans hends.symm)
        hcolons.symm fun sc base => finds_starred_starred_iff.2
  -- what is found below is found by the single `**`, too
  have hle : ∀ e ∈ doubled, e ∈ single := by
    intro e
    rw [hdoubled.mem_iff, hsingle.mem_iff]
    refine exists_finds_of_front hfront fs ⟨by simp [starred], hne⟩ hends ⟨hcolons.1, hcolon⟩
      fun sc base h => finds_starred_iff.2 (.inr (finds_starred_starred_iff_below.1 h))
  refine ⟨heq, hle, ?_, ?_⟩
  · intro h e he
    exact (heq e).1 ((h e).2 he)
  · intro h e
    exact ⟨hle e, fun he => (heq e).2 (h e he)⟩

/-- In the small namespace nothing stands in front of the repeated `**`. -/
theorem Namespace.small_yields_starred_starred :
    ∃ front i, Front front ∧ [] = front ++ starred^[i] [] ∧ ∃ doubled single lower,
      Yields Namespace.small.provider (startJobs Flags.standard (starred (starred ['x']))) doubled ∧
      Yields Namespace.small.provider (startJobs Flags.standard (starred ['x'])) single ∧
      Yields Namespace.small.provider
        (startJobs Flags.standard (front ++ starred ('*' :: '/' :: starred^[i] ['x']))) lower ∧
      (∀ e, e ∈ doubled ↔ e ∈ lower) ∧ (∀ e ∈ doubled, e ∈ single) ∧
      ((∀ e, e ∈ doubled ↔ e ∈ single) ↔ ∀ e ∈ single, e ∈ lower) :=
  Namespace.reachable_small.yields_starred_starred Flags.standard (.inl rfl) (by decide) (by decide)
    (by decide)

/-- **A second `**` may lose entries**: it cannot be taken for no directory. -/
theorem Namespace.small_starred_starred_misses :
    Namespace.small.Reachable ∧
      Yields Namespace.small.provider (startJobs Flags.standard (starred (starred ['x']))) [] ∧
      Yields Namespace.small.provider (startJobs Flags.standard (starred ['x']))
        [⟨['/', 'd', '/', 'x'], false⟩] :=
  ⟨Namespace.reachable_small, ⟨12, rfl, rfl⟩, ⟨12, rfl, rfl⟩⟩

end PathGlob
