import PathGlob.Proofs.Segment.Expressions

/-! # Bracket expressions as an engine reads them
The set of a bracket expression is a text in which some members stand behind a backslash. An engine
reads a set in one pass: it takes a character, looks for a `-` behind it, and makes a range if
something other than the end of the set follows. It makes of the text what the members stand for,
whatever characters they are.

* **`nextInSet?`** — what stands next in a set; **`nextItem`** — a turn of the pass; **`parseSet`** —
  the whole pass, with the reason for which a set is refused (**`SetError`**).
* **`nextInSet?_expression`** — a member is taken as it was rendered.
* **`nextItem_single`**, **`nextItem_range`**, **`nextItem_backwards`**, **`nextItem_dash`** — the
  turns for rendered members.
* **`ReadsItems.parseItems_body`** — the pass over all of them.
* **`Bracket.parseSet_of_members`** — the main statement. -/

namespace PathGlob

/-! ## The pass of an engine -/

/-- Why an engine refuses a set. -/
inductive SetError
  /-- The set has no end. -/
  | noEnd
  /-- A letter or a digit stands behind a backslash, where it names something else. -/
  | namedEscape (c : Char)
  /-- A range runs backwards. -/
  | backwards (first last : Char)
  deriving DecidableEq, Repr

/-- What stands next in a set, and the text behind it: a character, or a backslash with the character
behind it. -/
def nextInSet? : Text → Option (Member × Text)
  | [] => none
  | [c] => if c = '\\' then none else some (⟨c, false⟩, [])
  | c :: d :: r => if c = '\\' then some (⟨d, true⟩, r) else some (⟨c, false⟩, d :: r)

/-- Whether a letter or a digit stands behind a backslash. -/
def Member.isNamedEscape (m : Member) : Bool := m.escaped && m.char.isAlphanum

/-- What a turn of the pass comes to. -/
inductive SetTurn
  /-- The set ends, with the last items in front of its end. -/
  | ended (last : List SetItem) (rest : Text)
  /-- An item is read. -/
  | item (i : SetItem) (rest : Text)
  deriving DecidableEq, Repr

/-- The turn behind a character and a `-`: a range, unless the set ends there. -/
def nextRange (first : Char) (t : Text) : Except SetError SetTurn :=
  match nextInSet? t with
  | none => .error .noEnd
  | some (k, r) =>
    if k = Member.plain ']' then .ok (.ended [.single first, .single '-'] r)
    else if k.isNamedEscape then .error (.namedEscape k.char)
    else if k.char < first then .error (.backwards first k.char)
    else .ok (.item (.range first k.char) r)

/-- A turn of the pass. Before the first item has `begun`, an end is a character. -/
def nextItem (begun : Bool) (t : Text) : Except SetError SetTurn :=
  match nextInSet? t with
  | none => .error .noEnd
  | some (m, r) =>
    if begun ∧ m = Member.plain ']' then .ok (.ended [] r)
    else if m.isNamedEscape then .error (.namedEscape m.char)
    else
      match nextInSet? r with
      | none => .error .noEnd
      | some (n, u) =>
        if n = Member.plain '-' then nextRange m.char u else .ok (.item (.single m.char) r)

/-- What stands next takes up some of the text. -/
theorem length_lt_of_nextInSet? {t r : Text} {m : Member} (h : nextInSet? t = some (m, r)) :
    r.length < t.length := by
  rcases t with _ | ⟨c, _ | ⟨d, u⟩⟩
  · cases h
  · rw [nextInSet?] at h
    split at h
    · cases h
    · cases h
      simp
  · rw [nextInSet?] at h
    split at h
    · cases h
      simp only [List.length_cons]
      omega
    · cases h
      simp

/-- So does a range. -/
theorem length_lt_of_nextRange {first : Char} {t r : Text} {i : SetItem}
    (h : nextRange first t = .ok (.item i r)) : r.length < t.length := by
  unfold nextRange at h
  split at h
  · cases h
  · rename_i k u hk
    split_ifs at h
    · cases h
    · cases h
      exact length_lt_of_nextInSet? hk

/-- And so does an item. -/
theorem length_lt_of_nextItem {begun : Bool} {t r : Text} {i : SetItem}
    (h : nextItem begun t = .ok (.item i r)) : r.length < t.length := by
  unfold nextItem at h
  split at h
  · cases h
  · rename_i m u hm
    have hm := length_lt_of_nextInSet? hm
    split_ifs at h
    · cases h
    · split at h
      · cases h
      · rename_i n v hn
        have hn := length_lt_of_nextInSet? hn
        split_ifs at h
        · exact Nat.lt_trans (length_lt_of_nextRange h) (Nat.lt_trans hn hm)
        · cases h
          exact hm

/-- The items of a set up to its end, and the text behind it. -/
def parseItems (begun : Bool) (t : Text) : Except SetError (List SetItem × Text) :=
  match _h : nextItem begun t with
  | .error e => .error e
  | .ok (.ended last r) => .ok (last, r)
  | .ok (.item i r) => (parseItems true r).map fun x => (i :: x.1, x.2)
termination_by t.length
decreasing_by exact length_lt_of_nextItem _h

/-- The set behind its opening bracket, and the text behind it. A `^` at the front negates. -/
def parseSet (t : Text) : Except SetError (CharSet × Text) :=
  if t.head? = some '^' then (parseItems false t.tail).map fun x => (⟨true, x.1⟩, x.2)
  else (parseItems false t).map fun x => (⟨false, x.1⟩, x.2)

section

variable {begun : Bool} {m n : Member} {r t u : Text}

/-- The pass stops where a turn is refused. -/
theorem parseItems_of_error {e : SetError} (h : nextItem begun t = .error e) :
    parseItems begun t = .error e := by
  rw [parseItems]
  split <;> simp_all

/-- It ends where the set ends. -/
theorem parseItems_of_ended {last : List SetItem} (h : nextItem begun t = .ok (.ended last r)) :
    parseItems begun t = .ok (last, r) := by
  rw [parseItems]
  split <;> simp_all

/-- It goes on behind an item. -/
theorem parseItems_of_item {i : SetItem} (h : nextItem begun t = .ok (.item i r)) :
    parseItems begun t = (parseItems true r).map fun x => (i :: x.1, x.2) := by
  rw [parseItems]
  split <;> simp_all

/-! ## Rendered members -/

/-- **A member is taken as it was rendered.** -/
theorem nextInSet?_expression (m : Member) (r : Text) :
    nextInSet? (m.expression ++ r) = some (m.rendered, r) := by
  rcases m.expression_cases with ⟨hm, -, he⟩ | ⟨hm, -, hescape, he⟩
  · rw [he, hm]
    rfl
  · rw [he, hm]
    cases r with
    | nil => exact if_neg hescape
    | cons d r => exact if_neg hescape

/-- It is never taken for an end, and never names something else. -/
theorem Member.rendered_ne_end (m : Member) :
    m.rendered ≠ Member.plain ']' ∧ m.rendered.isNamedEscape = false := by
  rcases m.expression_cases with ⟨hm, hchar, -⟩ | ⟨hm, hend, -, -⟩
  · rw [hm]
    exact ⟨by simp [Member.plain], by simp [Member.isNamedEscape, hchar]⟩
  · rw [hm]
    exact ⟨by simpa [Member.plain] using hend, rfl⟩

/-- A set ends at its closing bracket. -/
theorem nextItem_closing (r : Text) : nextItem true (']' :: r) = .ok (.ended [] r) := by
  cases r <;> rfl

/-- Behind a member it depends on what follows. -/
theorem nextItem_expression (hn : nextInSet? t = some (n, u)) :
    nextItem begun (m.expression ++ t) =
      if n = Member.plain '-' then nextRange m.char u else .ok (.item (.single m.char) t) := by
  obtain ⟨hend, hnamed⟩ := m.rendered_ne_end
  rw [nextItem, nextInSet?_expression]
  simp only [hend, and_false, if_false, hnamed, Bool.false_eq_true, hn]
  rfl

/-- A member that is followed by something other than a `-` stands for itself. -/
theorem nextItem_single (hn : nextInSet? t = some (n, u)) (hdash : n ≠ Member.plain '-') :
    nextItem begun (m.expression ++ t) = .ok (.item (.single m.char) t) := by
  rw [nextItem_expression hn, if_neg hdash]

/-- A `-` in front of the end stands for itself. -/
theorem nextItem_dash (begun : Bool) (m : Member) (r : Text) :
    nextItem begun (m.expression ++ '-' :: ']' :: r) =
      .ok (.ended [.single m.char, .single '-'] r) := by
  have hdash : nextInSet? ('-' :: ']' :: r) = some (Member.plain '-', ']' :: r) := rfl
  have hend : nextInSet? (']' :: r) = some (Member.plain ']', r) := by cases r <;> rfl
  rw [nextItem_expression hdash, if_pos rfl, nextRange, hend]
  rfl

/-- A `-` between two members makes a range of them, which must run forwards. -/
theorem nextItem_range (begun : Bool) (m k : Member) (r : Text) :
    nextItem begun (m.expression ++ '-' :: (k.expression ++ r)) =
      if k.char < m.char then .error (.backwards m.char k.char)
      else .ok (.item (.range m.char k.char) r) := by
  have hdash : nextInSet? ('-' :: (k.expression ++ r)) =
      some (Member.plain '-', k.expression ++ r) := nextInSet?_expression (Member.plain '-') _
  obtain ⟨hend, hnamed⟩ := k.rendered_ne_end
  rw [nextItem_expression hdash, if_pos rfl, nextRange, nextInSet?_expression]
  simp only [hend, if_false, hnamed, Bool.false_eq_true]
  rfl

end

/-! ## The pass over rendered members -/

/-- **What the pass comes to for items** with the text `rest` behind them: they are read, or a range
among them runs backwards and is refused. -/
inductive ParsesInOrder (is : List SetItem) (rest : Text) :
    Except SetError (List SetItem × Text) → Prop
  /-- All ranges run forwards. -/
  | read (hforth : ∀ first last, .range first last ∈ is → first ≤ last) :
      ParsesInOrder is rest (.ok (is, rest))
  /-- One runs backwards. -/
  | refused {first last : Char} (hrange : .range first last ∈ is) (hback : last < first) :
      ParsesInOrder is rest (.error (.backwards first last))

section

variable {ms : List Member} {is : List SetItem} {rest : Text}

/-- An item that does not run backwards may stand in front. -/
theorem ParsesInOrder.cons {i : SetItem} {result : Except SetError (List SetItem × Text)}
    (hi : ∀ first last, i = .range first last → first ≤ last) (h : ParsesInOrder is rest result) :
    ParsesInOrder (i :: is) rest (result.map fun x => (i :: x.1, x.2)) := by
  cases h with
  | read hforth =>
    refine .read fun first last hmem => ?_
    rcases List.mem_cons.1 hmem with hmem | hmem
    · exact hi first last hmem.symm
    · exact hforth first last hmem
  | refused hrange hback => exact .refused (List.mem_cons_of_mem i hrange) hback

/-- **The pass over rendered members** comes to the items that they stand for. -/
theorem ReadsItems.parseItems_body (h : ReadsItems ms is) (begun : Bool)
    (hbegun : begun = true ∨ ms ≠ []) (rest : Text) :
    ParsesInOrder is rest (parseItems begun (ms.flatMap Member.expression ++ ']' :: rest)) := by
  induction h generalizing begun with
  | nil =>
    obtain rfl := hbegun.resolve_right (by simp)
    rw [List.flatMap_nil, List.nil_append, parseItems_of_ended (nextItem_closing rest)]
    exact .read (by simp)
  | @range m k ms is h ih =>
    have hturn := nextItem_range begun m k (ms.flatMap Member.expression ++ ']' :: rest)
    have htext : (m :: Member.plain '-' :: k :: ms).flatMap Member.expression ++ ']' :: rest =
        m.expression ++ '-' :: (k.expression ++ (ms.flatMap Member.expression ++ ']' :: rest)) := by
      simp [Member.expression, Member.plain, setSpecials]
    rw [htext]
    by_cases hback : k.char < m.char
    · rw [if_pos hback] at hturn
      rw [parseItems_of_error hturn]
      exact .refused List.mem_cons_self hback
    · rw [if_neg hback] at hturn
      rw [parseItems_of_item hturn]
      refine (ih true (.inl rfl)).cons fun first last hi => ?_
      cases hi
      exact Char.not_lt.1 hback
  | @single m ms is hno h ih =>
    rw [List.flatMap_cons, List.append_assoc]
    have hitem {n : Member} {u : Text}
        (hn : nextInSet? (ms.flatMap Member.expression ++ ']' :: rest) = some (n, u))
        (hdash : n ≠ Member.plain '-') :
        ParsesInOrder (.single m.char :: is) rest
          (parseItems begun (m.expression ++ (ms.flatMap Member.expression ++ ']' :: rest))) := by
      rw [parseItems_of_item (nextItem_single hn hdash)]
      exact (ih true (.inl rfl)).cons (by simp)
    rcases ms with _ | ⟨n, ms⟩
    · -- the end follows
      exact hitem (n := Member.plain ']') (u := rest) (by cases rest <;> rfl) (by decide)
    by_cases hn : n = Member.plain '-'
    · -- a `-` that makes no range is the last member
      subst hn
      cases ms with
      | cons k ks => exact absurd rfl (hno k ks)
      | nil =>
        obtain rfl : [.single '-'] = is := readsItems_iff.1 h
        have hturn : nextItem begun
            (m.expression ++ ([Member.plain '-'].flatMap Member.expression ++ ']' :: rest)) =
            .ok (.ended [.single m.char, .single '-'] rest) := nextItem_dash begun m rest
        rw [parseItems_of_ended hturn]
        exact .read (by simp)
    · refine hitem (n := n.rendered) (u := ms.flatMap Member.expression ++ ']' :: rest) ?_
        fun h => hn ((Member.rendered_eq_plain_iff (.inl rfl)).1 h)
      rw [List.flatMap_cons, List.append_assoc, nextInSet?_expression]

end

/-! ## Bracket expressions -/

/-- The members of a bracket expression are those that were added. -/
theorem Bracket.members_foldl_add (b : Bracket) (ms : List Member) :
    (ms.foldl Bracket.add b).members = b.members ++ ms := by
  induction ms generalizing b with
  | nil => simp
  | cons m ms ih => rw [List.foldl_cons, ih, Bracket.members_add, List.append_assoc]; rfl

/-- A set is negated exactly if its first member is an unescaped `^` and not the only one. -/
theorem ReadsSet.negated_iff {ms : List Member} {s : CharSet} (h : ReadsSet ms s) :
    s.negated = true ↔ ∃ ns, ns ≠ [] ∧ ms = Member.plain '^' :: ns := by
  cases h with
  | negated hne h => exact iff_of_true rfl ⟨_, hne, rfl⟩
  | plain hno h => exact iff_of_false Bool.false_ne_true fun ⟨ns, hne, hms⟩ => hne (hno ns hms)

/-- **An engine reads a bracket expression as it is meant.** Whatever members are added, one at least,
there is one set that they stand for: it is negated exactly if the first member is an unescaped `^` and
there are others, and its items are read from the members from left to right. The text of the bracket
expression is one complete set to an engine, whatever stands behind it. It is refused exactly if a range
runs backwards, and for no other reason; otherwise it is read as that set, and a character is in it if
it is in an item, or in none if the set is negated. -/
theorem Bracket.parseSet_of_members {ms : List Member} (hne : ms ≠ []) :
    ∃ t s, (ms.foldl Bracket.add .empty).expression? = some ('[' :: t) ∧
      ReadsSet ms s ∧ (s.negated = true ↔ ∃ ns, ns ≠ [] ∧ ms = Member.plain '^' :: ns) ∧
      (∀ rest,
        ((∃ e, parseSet (t ++ rest) = .error e) ↔
          ∃ first last, .range first last ∈ s.items ∧ last < first) ∧
        (∀ e, parseSet (t ++ rest) = .error e → ∃ first last, e = .backwards first last) ∧
        ∀ x, parseSet (t ++ rest) = .ok x → x = (s, rest)) ∧
      ∀ d, s.holds false d = true ↔ s.Contains false d := by
  have hmembers : (ms.foldl Bracket.add .empty).members = ms := Bracket.members_foldl_add _ ms
  obtain ⟨negated, ns, hns, hset, hexpression, hfront⟩ :=
    exists_expression?_eq (b := ms.foldl Bracket.add .empty) (by rwa [hmembers])
  rw [hmembers] at hset
  have hreads := readsSet_iff.2 hset
  refine ⟨_, _, hexpression, hreads, hreads.negated_iff, fun rest => ?_, fun d => CharSet.holds_iff⟩
  have hitems := (readsItems_iff.2 (Eq.refl (SetItem.ofMembers ns))).parseItems_body false
    (.inr hns) rest
  have hparse : parseSet ((if negated then ['^'] else []) ++
      (ns.flatMap Member.expression ++ [']']) ++ rest) =
        (parseItems false (ns.flatMap Member.expression ++ ']' :: rest)).map
          fun x => (⟨negated, x.1⟩, x.2) := by
    rw [List.append_assoc, List.append_assoc, List.singleton_append]
    cases negated with
    | true => rfl
    | false => exact if_neg (hfront rfl (']' :: rest))
  rw [hparse]
  generalize parseItems false (ns.flatMap Member.expression ++ ']' :: rest) = result at hitems
  cases hitems with
  | read hforth =>
    refine ⟨iff_of_false ?_ ?_, ?_, ?_⟩
    · rintro ⟨e, he⟩
      cases he
    · rintro ⟨first, last, hrange, hback⟩
      exact Char.not_lt.2 (hforth first last hrange) hback
    · intro e he
      cases he
    · intro x hx
      cases hx
      rfl
  | @refused first last hrange hback =>
    refine ⟨iff_of_true ⟨_, rfl⟩ ⟨first, last, hrange, hback⟩, ?_, ?_⟩
    · intro e he
      cases he
      exact ⟨first, last, rfl⟩
    · intro x hx
      cases hx

/-- The members of `[^\]\-a-c\\]`, of which the second, the third and the last are escaped. -/
def awkwardMembers : List Member :=
  [.plain '^', ⟨']', true⟩, ⟨'-', true⟩, .plain 'a', .plain '-', .plain 'c', ⟨'\\', true⟩]

/-- An engine reads the awkward members back. -/
theorem parseSet_awkwardMembers :
    awkwardMembers ≠ [] ∧
    (awkwardMembers.foldl Bracket.add .empty).expression? = some "[^\\]\\-a-c\\\\]".toList ∧
    parseSet "^\\]\\-a-c\\\\]".toList =
      .ok (⟨true, [.single ']', .single '-', .range 'a' 'c', .single '\\']⟩, []) := by
  have hne : awkwardMembers ≠ [] := by decide
  obtain ⟨t, s, ht, hs, -, hparse, -⟩ := Bracket.parseSet_of_members hne
  have htext : (awkwardMembers.foldl Bracket.add .empty).expression? =
      some "[^\\]\\-a-c\\\\]".toList := by decide
  obtain rfl : "^\\]\\-a-c\\\\]".toList = t :=
    (List.cons.inj (Option.some.inj (htext.symm.trans ht))).2
  obtain rfl : ⟨true, [.single ']', .single '-', .range 'a' 'c', .single '\\']⟩ = s :=
    readsSet_iff.1 hs
  obtain ⟨hrefused, -, hread⟩ := hparse []
  rw [List.append_nil] at hrefused hread
  refine ⟨hne, htext, ?_⟩
  cases hresult : parseSet "^\\]\\-a-c\\\\]".toList with
  | ok x => rw [hread x hresult]
  | error e =>
    obtain ⟨first, last, hrange, hback⟩ := hrefused.1 ⟨e, hresult⟩
    obtain ⟨rfl, rfl⟩ : first = 'a' ∧ last = 'c' := by simpa using hrange
    exact absurd hback (by decide)

end PathGlob
