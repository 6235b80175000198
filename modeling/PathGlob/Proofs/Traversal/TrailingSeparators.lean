import PathGlob.Proofs.Namespace.PartMatches

/-! # Separators at the end
A separator at the end of a pattern asks for directories. It makes a part of its own, so that a last
segment with a wildcard is no longer the last one: directories are visited before they are tested, and
files are never tested. What is found are the directories that the pattern finds without it.

* **`Namespace.matchPart_filter`** — what a part finds may be filtered behind it.
* **`Namespace.matchParts_append_slash`** — the law for what a pattern finds from a place.
* **`Namespace.Reachable.yields_append_slash_of_not_leap`** — the law for walks, if the pattern does not
  begin with `**//`. -/

namespace PathGlob

variable {s : Namespace} {fs : Flags} {l : Location} {again : Bool} {w t u pattern : Text} {c : Char}
  {part part' : Part} {behind behind' : Bool → Location → List Entry}

/-! ## Filtering -/

/-- What a sweep finds may be filtered where it is found. -/
theorem Namespace.sweep_filter (keep : Entry → Bool) (accepts : Text → Bool)
    (found close : Location → List Entry) (l : Location) :
    (s.sweep accepts found close l).filter keep =
      s.sweep accepts (fun l' => (found l').filter keep) (fun l' => (close l').filter keep) l := by
  induction l using s.directoryInduction with
  | step l below =>
    rw [Namespace.sweep, Namespace.sweep, List.filter_append, List.filter_flatMap]
    refine congrArg (· ++ _) (congrArg (List.flatMap · _) ?_)
    funext name
    rw [List.filter_append]
    by_cases hdir : s.kind? (name :: l) = some .directory
    · rw [if_pos hdir, if_pos hdir, below name hdir]
    · rw [if_neg hdir, if_neg hdir, List.filter_nil]

/-- **What a part finds may be filtered behind it.** -/
theorem Namespace.matchPart_filter (keep : Entry → Bool) :
    (s.matchPart fs part behind l again).filter keep =
      s.matchPart fs part (fun again' l' => (behind again' l').filter keep) l again := by
  by_cases hdir : s.kind? l = some .directory
  · cases hw : part.wild with
    | false => rw [Namespace.matchPart_literal hdir hw, Namespace.matchPart_literal hdir hw]
    | true =>
      by_cases hstar : part.text = doubleStar
      · rw [Namespace.matchPart_doubleStar hdir hw hstar, Namespace.matchPart_doubleStar hdir hw hstar,
          List.filter_append, Namespace.sweep_filter]
        simp only [List.filter_flatMap]
        cases again <;> rfl
      · rw [Namespace.matchPart_wild hdir hw hstar, Namespace.matchPart_wild hdir hw hstar,
          List.filter_append, List.filter_flatMap, List.filter_flatMap]
  · rw [Namespace.matchPart_of_ne hdir, Namespace.matchPart_of_ne hdir, List.filter_nil]

/-- Where only directories are wanted, the entry at a place is found exactly if it is one. -/
theorem Namespace.entryAt?_filter (l : Location) :
    (s.entryAt? false l).toList.filter Entry.isDirectory = (s.entryAt? true l).toList := by
  cases hk : s.kind? l with
  | none => rw [Namespace.entryAt?_of_none _ hk, Namespace.entryAt?_of_none _ hk]; rfl
  | some k =>
    cases k with
    | directory =>
      rw [Namespace.entryAt?_of_directory _ hk, Namespace.entryAt?_of_directory _ hk]
      rfl
    | file => simp [Namespace.entryAt?, Namespace.directoryAt?, Namespace.fileAt?, hk, Node.entry]

/-- Whether a segment is the last one makes no difference to the directory itself and its parent, if
hidden names are not matched by wildcards. -/
theorem specialNames_congr (hdot : fs.has .dotMatch = false) (seg : Text) (last last' : Bool) :
    specialNames fs seg last = specialNames fs seg last' := by
  simp [specialNames, hdot]

/-- A part with another rest finds the same if the same is behind it. -/
theorem Namespace.matchPart_congr (hdot : fs.has .dotMatch = false) (htext : part.text = part'.text)
    (hw : part.wild = part'.wild) (hbehind : ∀ again l, behind again l = behind' again l) :
    s.matchPart fs part behind l again = s.matchPart fs part' behind' l again := by
  obtain rfl : behind = behind' := funext fun again => funext fun l => hbehind again l
  unfold Namespace.matchPart
  rw [htext, hw, specialNames_congr hdot _ part.rest?.isNone part'.rest?.isNone]

/-! ## Patterns -/

/-- **A pattern to which a separator is added**: it does not end in one, and there are no escapes and no
drive marks. -/
structure Unslashed (w : Text) : Prop where
  /-- There is a pattern. -/
  ne_nil : w ≠ []
  /-- There is no escape. -/
  backslash : '\\' ∉ w
  /-- There is no drive mark. -/
  colon : ':' ∉ w
  /-- There is no separator at the end. -/
  slash : endsIn '/' w = false

/-- A separator at the end is no wildcard. -/
theorem isWild_append_slash (hb : '\\' ∉ w) : fs.isWild (w ++ ['/']) = fs.isWild w := by
  have hwhole : fs.Whole w := .of_not_mem hb
  have hmarks := hwhole.marks_separator (c := '/') rfl []
  rw [Bool.eq_iff_iff, Flags.isWild_iff, Flags.isWild_iff, hmarks]
  simp [marks]

/-- It does not say where a walk starts. -/
theorem isAnchored_append_slash (hne : w ≠ []) : isAnchored (w ++ ['/']) = isAnchored w := by
  simp [isAnchored, beginsWith_append_of_ne_nil hne]

/-- It leaves what stands in front of the first wildcard as it is. -/
theorem beforeWildcard_append_slash (hb : '\\' ∉ w) (hw : fs.isWild w = true) :
    beforeWildcard (marks fs.escapes (w ++ ['/'])) = beforeWildcard (marks fs.escapes w) := by
  rw [(Flags.Whole.of_not_mem hb).marks_append, beforeWildcard_append_of_mem (Flags.isWild_iff.1 hw)]

/-- **A separator at the end stays at the end of the rest**, and it makes a rest if there was none. -/
theorem next_append_slash (hb : '\\' ∉ w) (hpart : Part.next fs.escapes w = part)
    (hw : fs.isWild w = true) :
    Part.next fs.escapes (w ++ ['/']) =
      ⟨part.text, part.wild, some ((part.rest?.map (· ++ ['/'])).getD [])⟩ := by
  have hcut := cuts_next fs w
  rw [hpart] at hcut
  refine Cuts.next_eq ?_
  cases hcut with
  | rest hw' =>
    rw [hw'] at hw
    cases hw
  | @lead t u c ht hc hwt hu hfirst =>
    have hbu : '\\' ∉ u := fun hmem => hb (List.mem_append_right t (List.mem_cons_of_mem c hmem))
    rw [List.append_assoc, List.cons_append]
    exact .lead ht hc hwt ((isWild_append_slash hbu).trans hu)
      (by rwa [beforeWildcard_append_slash hbu hu])
  | last _ hs => exact .segment (.of_not_mem hb) rfl hw hs
  | segment ht hc hwt hs =>
    rw [List.append_assoc, List.cons_append]
    exact .segment ht hc hwt hs

/-! ## The law -/

/-- Behind a last segment with a wildcard the directory is visited before it is tested. -/
theorem Namespace.matchParts_nil :
    s.matchParts fs true [] l again = (s.entryAt? true l).toList := by
  by_cases hdir : s.kind? l = some .directory
  · exact Namespace.matchParts_rest hdir rfl
  · rw [Namespace.matchParts_of_ne hdir]
    simp [Namespace.entryAt?, Namespace.directoryAt?, hdir]

/-- **With a separator at the end a pattern finds the directories that it finds without it.** The
induction is on the length of the pattern. -/
theorem Namespace.matchParts_append_slash (hdot : fs.has .dotMatch = false) (hb : '\\' ∉ w) :
    s.matchParts fs true (w ++ ['/']) l again =
      (s.matchParts fs false w l again).filter Entry.isDirectory := by
  induction hn : w.length using Nat.strongRecOn generalizing w l again with
  | _ n shorter =>
    by_cases hdir : s.kind? l = some .directory
    · cases hw : fs.isWild w with
      | false =>
        rw [Namespace.matchParts_rest hdir hw,
          Namespace.matchParts_rest hdir ((isWild_append_slash hb).trans hw),
          Namespace.entryAt?_filter, pieces_append_cons, follow_append]
        rfl
      | true =>
        obtain ⟨part, hpart⟩ : ∃ part, Part.next fs.escapes w = part := ⟨_, rfl⟩
        rw [Namespace.matchParts_eq (next_append_slash hb hpart hw), Namespace.matchParts_eq hpart,
          Namespace.matchPart_filter]
        refine Namespace.matchPart_congr hdot rfl rfl fun again' l' => ?_
        cases hr : part.rest? with
        | none => exact Namespace.matchParts_nil.trans (Namespace.entryAt?_filter l').symm
        | some rest =>
          have hrest : (Part.next fs.escapes w).rest? = some rest := hpart ▸ hr
          exact shorter _ (hn ▸ Part.length_rest_lt hrest) ((Part.not_mem hb _).2 rest hrest) rfl
    · rw [Namespace.matchParts_of_ne hdir, Namespace.matchParts_of_ne hdir, List.filter_nil]

/-! ## Walks -/

/-- **A pattern that names no starting point and does not begin with `**//`** stays with the current
directory. -/
theorem staysLocal_of_not_leap (ha : isAnchored pattern = false)
    (hleap : ¬doubleStar ++ ['/', '/'] <+: pattern) : StaysLocal pattern false where
  front := isSeparator_head?_of_not_isAnchored ha
  behind := by
    have hslash : ∀ c ∈ pattern, isSeparator c = true → c = '/' := by
      intro c hc hsep
      refine (isSeparator_iff.1 hsep).resolve_right ?_
      rintro rfl
      exact (not_isAnchored_iff.1 ha).2 hc
    rintro - c rest hc rfl c' hc'
    obtain ⟨r, rfl⟩ := List.head?_eq_some_iff.1 hc'
    cases hsep : isSeparator c' with
    | false => rfl
    | true =>
      obtain rfl := hslash c (by simp) hc
      obtain rfl := hslash c' (by simp) hsep
      exact absurd ⟨r, rfl⟩ hleap

/-- Neither does it leave the current directory with a separator at its end. -/
theorem not_leap_append_slash (hend : endsIn '/' pattern = false)
    (hleap : ¬doubleStar ++ ['/', '/'] <+: pattern) :
    ¬doubleStar ++ ['/', '/'] <+: pattern ++ ['/'] := by
  rw [List.prefix_concat_iff]
  rintro (heq | hprefix)
  · -- the pattern would be `**/`
    obtain rfl : doubleStar ++ ['/'] = pattern := List.append_cancel_right (by simpa using heq)
    cases hend
  · exact hleap hprefix

/-- A pattern without drive marks whose first segment has a wildcard names no starting point. -/
theorem not_isAnchored_of_wild_front (hcolon : ':' ∉ pattern)
    (hfirst : .separator ∉ beforeWildcard (marks fs.escapes pattern)) :
    isAnchored pattern = false := by
  refine not_isAnchored_iff.2 ⟨?_, hcolon⟩
  have hhead := isSeparator_head?_of_wild_front hfirst
  cases pattern with
  | nil => rfl
  | cons c r =>
    have hc : c ≠ '/' := by
      rintro rfl
      exact absurd (hhead '/' rfl) (by decide)
    simp [beginsWith, List.isPrefixOf, hc.symm]

/-- **The law for walks.** If hidden names are not matched by wildcards, a pattern that does not begin
with `**//` finds with a separator at its end exactly the directories that it finds without it. -/
theorem Namespace.Reachable.yields_append_slash_of_not_leap (hs : s.Reachable)
    (hdot : fs.has .dotMatch = false) (hp : Unslashed pattern) (hstar : pattern ≠ doubleStar)
    (hleap : ¬doubleStar ++ ['/', '/'] <+: pattern) :
    ∃ found, Yields s.provider (startJobs fs pattern) found ∧
      Yields s.provider (startJobs fs (pattern ++ ['/'])) (found.filter Entry.isDirectory) := by
  have hb := hp.backslash
  have hb' : '\\' ∉ pattern ++ ['/'] := by simp [hb]
  have hend := hp.slash
  have hend' : endsIn '/' (pattern ++ ['/']) = true := endsIn_iff.2 ⟨pattern, rfl⟩
  have hstar' : pattern ++ ['/'] ≠ doubleStar := ne_doubleStar_of_mem (by simp)
  have hanchored := isAnchored_append_slash hp.ne_nil
  have hlocal : isAnchored pattern = false → StaysLocal pattern false := fun ha =>
    staysLocal_of_not_leap ha hleap
  have hlocal' : isAnchored (pattern ++ ['/']) = false → StaysLocal (pattern ++ ['/']) false := fun ha =>
    staysLocal_of_not_leap ha (not_leap_append_slash hend hleap)
  -- the separator stays at the end of what is left behind the beginning
  cases begins fs pattern with
  | literal hw =>
    have hplain := hs.yields_startJobs_rest hp.ne_nil hb hlocal hw
    have hslash := hs.yields_startJobs_rest (by simp) hb' hlocal' ((isWild_append_slash hb).trans hw)
    have hplace : s.locate (pattern ++ ['/']) = s.locate pattern :=
      locateFrom_slash_end s.cwd hp.ne_nil
    rw [hend] at hplain
    rw [hend', hplace, ← Namespace.entryAt?_filter] at hslash
    exact ⟨_, hplain, hslash⟩
  | @lead t u c ht hc hw hu hfirst =>
    have hbu : '\\' ∉ u := fun hmem => hb (List.mem_append_right t (List.mem_cons_of_mem c hmem))
    have hplain := hs.yields_startJobs_lead hb hlocal hc hw hu hfirst
    rw [List.append_assoc, List.cons_append] at hb' hlocal' hend' ⊢
    have hslash := hs.yields_startJobs_lead hb' hlocal' hc hw ((isWild_append_slash hbu).trans hu)
      (by rwa [beforeWildcard_append_slash hbu hu])
    rw [hend] at hplain
    rw [hend', Namespace.matchParts_append_slash hdot hbu] at hslash
    exact ⟨_, hplain, hslash⟩
  | wild hw hfirst =>
    have ha := not_isAnchored_of_wild_front hp.colon hfirst
    have hplain := hs.yields_startJobs_wild hstar hb (hlocal ha) hw hfirst
    have hslash := hs.yields_startJobs_wild hstar' hb' (hlocal' (hanchored.trans ha))
      ((isWild_append_slash hb).trans hw) (by rwa [beforeWildcard_append_slash hb hw])
    rw [hend] at hplain
    rw [hend', Namespace.matchParts_append_slash hdot hb] at hslash
    exact ⟨_, hplain, hslash⟩

end PathGlob
