import Univariate.Proofs.Expr.Acceptance

/-!
# Parentheses and their partners

Two parentheses are partners if the text between them is balanced.  A text
in which some have no partner is cut by them into balanced pieces: in front
there are closing ones, behind them opening ones, and nothing changes the
order.  Reading stops at the first closing one that has no partner; if there
is none, the opening ones without partner are what is left on the stack, the
last one on top.

So a closing parenthesis is reported if it is the first one without partner,
but of several opening ones it is the last that is reported.

* `Balanced`, `UnmatchedAt` — partners, and parentheses without one;
* `Balanced.partner` — in a balanced text there are none;
* `Leaves`, `Leaves.unmatchedAt_iff` — the stack holds what has no partner;
* `Expr.checkParens_reports` — what is reported.
-/

namespace Univariate

/-- Every parenthesis has its partner. -/
inductive Balanced : List Char → Prop
  | nil : Balanced []
  | plain {c : Char} {cs : List Char} (hc : Plain c) (h : Balanced cs) : Balanced (c :: cs)
  | paren {inside rest : List Char} (hinside : Balanced inside) (hrest : Balanced rest) :
      Balanced ('(' :: (inside ++ ')' :: rest))

/-- An opening parenthesis in front of the text has its partner in it. -/
def ClosedIn (after : List Char) : Prop :=
  ∃ inside rest, after = inside ++ ')' :: rest ∧ Balanced inside

/-- A closing parenthesis behind the text has its partner in it. -/
def OpenedIn (before : List Char) : Prop :=
  ∃ rest inside, before = rest ++ '(' :: inside ∧ Balanced inside

/-- At this byte of the text there is a parenthesis that has no partner. -/
def UnmatchedAt (text : List Char) (position : ℕ) (c : Char) : Prop :=
  ∃ before after, text = before ++ c :: after ∧ Text.byteLength before = position ∧
    (c = '(' ∧ ¬ClosedIn after ∨ c = ')' ∧ ¬OpenedIn before)

variable {before after front back cs ds text : List Char} {c d : Char} {waiting : List ℕ}
  {position i j : ℕ}

/-! ## Balanced texts -/

/-- Balanced texts may follow one another. -/
theorem Balanced.append (h : Balanced cs) (hds : Balanced ds) : Balanced (cs ++ ds) := by
  induction h with
  | nil => exact hds
  | plain hc _ ih => exact .plain hc ih
  | paren hinside _ _ ih =>
      rw [List.cons_append, List.append_assoc]
      exact .paren hinside ih

/-- A partner that was there stays, whatever comes behind it. -/
theorem ClosedIn.append (h : ClosedIn after) (back : List Char) : ClosedIn (after ++ back) := by
  obtain ⟨inside, rest, rfl, hinside⟩ := h
  exact ⟨inside, rest ++ back, List.append_assoc _ _ _, hinside⟩

/-- A partner that was there stays, whatever comes before it. -/
theorem OpenedIn.append (h : OpenedIn before) (front : List Char) :
    OpenedIn (front ++ before) := by
  obtain ⟨rest, inside, rfl, hinside⟩ := h
  exact ⟨front ++ rest, inside, (List.append_assoc _ _ _).symm, hinside⟩

/-- Of two characters of a text one is in front of the other, or they are
the same one. -/
theorem split_cases (h : front ++ d :: back = before ++ c :: after) :
    (∃ between, front = before ++ c :: between ∧ after = between ++ d :: back) ∨
      (before = front ∧ c = d ∧ after = back) ∨
      ∃ between, before = front ++ d :: between ∧ back = between ++ c :: after := by
  rcases List.append_eq_append_iff.mp h with ⟨between, hbefore, hback⟩ | ⟨between, hfront, hafter⟩
  · cases between with
    | nil =>
        obtain ⟨rfl, rfl⟩ := List.cons.inj hback
        exact Or.inr (Or.inl ⟨by rw [hbefore, List.append_nil], rfl, rfl⟩)
    | cons e between =>
        obtain ⟨rfl, hrest⟩ := List.cons.inj hback
        exact Or.inr (Or.inr ⟨between, hbefore, hrest⟩)
  · cases between with
    | nil =>
        obtain ⟨rfl, rfl⟩ := List.cons.inj hafter
        exact Or.inr (Or.inl ⟨by rw [hfront, List.append_nil], rfl, rfl⟩)
    | cons e between =>
        obtain ⟨rfl, hrest⟩ := List.cons.inj hafter
        exact Or.inl ⟨between, hfront, hrest⟩

/-- **In a balanced text every parenthesis has a partner.** -/
theorem Balanced.partner (h : Balanced text) (htext : text = before ++ c :: after) :
    (c = '(' → ClosedIn after) ∧ (c = ')' → OpenedIn before) := by
  induction h generalizing before after with
  | nil => exact absurd htext.symm (List.append_ne_nil_of_right_ne_nil _ (List.cons_ne_nil _ _))
  | @plain d cs hd h ih =>
      cases before with
      | nil =>
          obtain ⟨rfl, rfl⟩ := List.cons.inj htext
          exact ⟨fun hopen => absurd hopen hd.1, fun hclose => absurd hclose hd.2⟩
      | cons e before =>
          obtain ⟨hopen, hclose⟩ := ih (List.cons.inj htext).2
          exact ⟨hopen, fun hc => (hclose hc).append [e]⟩
  | @paren inside rest hinside hrest ihinside ihrest =>
      have hpair : OpenedIn ('(' :: inside) := ⟨[], inside, rfl, hinside⟩
      have hsplit : [] ++ '(' :: (inside ++ ')' :: rest) = before ++ c :: after := htext
      rcases split_cases hsplit with
        ⟨between, hnil, -⟩ | ⟨rfl, rfl, rfl⟩ | ⟨front, rfl, hback⟩
      · exact absurd hnil.symm (List.append_ne_nil_of_right_ne_nil _ (List.cons_ne_nil _ _))
      · exact ⟨fun _ => ⟨inside, rest, rfl, hinside⟩, fun hclose => absurd hclose (by decide)⟩
      · rcases split_cases hback with
          ⟨between, hin, rfl⟩ | ⟨rfl, rfl, rfl⟩ | ⟨between, rfl, hbehind⟩
        · obtain ⟨hopen, hclose⟩ := ihinside hin
          exact ⟨fun hc => (hopen hc).append _, fun hc => (hclose hc).append ['(']⟩
        · exact ⟨fun hopen => absurd hopen (by decide), fun _ => hpair⟩
        · obtain ⟨hopen, hclose⟩ := ihrest hbehind
          refine ⟨hopen, fun hc => ?_⟩
          have hopened := (hclose hc).append ('(' :: (inside ++ [')']))
          simpa using hopened

/-- So nothing is unmatched in it. -/
theorem Balanced.not_unmatchedAt (h : Balanced text) : ¬UnmatchedAt text i c := by
  rintro ⟨before, after, htext, -, ⟨hopen, hnone⟩ | ⟨hclose, hnone⟩⟩
  · exact hnone ((h.partner htext).1 hopen)
  · exact hnone ((h.partner htext).2 hclose)

/-- A parenthesis in the front part of a text that has no partner in the
whole has none in the part. -/
theorem not_unmatched_front (h : Balanced (before ++ c :: cs)) :
    ¬(c = '(' ∧ ¬ClosedIn (cs ++ back) ∨ c = ')' ∧ ¬OpenedIn before) := by
  rintro (⟨hopen, hnone⟩ | ⟨hclose, hnone⟩)
  · exact hnone (((h.partner rfl).1 hopen).append back)
  · exact hnone ((h.partner rfl).2 hclose)

namespace Expr

/-! ## Reading -/

/-- An opening parenthesis waits. -/
theorem openParens_open (position : ℕ) (waiting : List ℕ) (cs : List Char) :
    openParens position waiting ('(' :: cs) =
      openParens (position + '('.utf8Size) (position :: waiting) cs := rfl

/-- A closing one takes the partner that has waited least. -/
theorem openParens_close (position inner : ℕ) (outer : List ℕ) (cs : List Char) :
    openParens position (inner :: outer) (')' :: cs) =
      openParens (position + ')'.utf8Size) outer cs := rfl

theorem plain_or_parenthesis (c : Char) : c = '(' ∨ c = ')' ∨ Plain c := by
  by_cases hopen : c = '('
  · exact Or.inl hopen
  · by_cases hclose : c = ')'
    · exact Or.inr (Or.inl hclose)
    · exact Or.inr (Or.inr ⟨hopen, hclose⟩)

/-- Reading goes through one part of the text after the other. -/
theorem openParens_bind (position : ℕ) (waiting : List ℕ) (cs ds : List Char) :
    openParens position waiting (cs ++ ds) =
      openParens position waiting cs >>= fun waiting' =>
        openParens (position + Text.byteLength cs) waiting' ds := by
  induction cs generalizing position waiting with
  | nil => rfl
  | cons c cs ih =>
      rw [List.cons_append, Text.byteLength_cons, ← add_assoc]
      rcases plain_or_parenthesis c with rfl | rfl | hc
      · rw [openParens_open, openParens_open, ih]
      · cases waiting with
        | nil => rfl
        | cons inner outer => rw [openParens_close, openParens_close, ih]
      · rw [openParens_cons hc, openParens_cons hc, ih]

/-- A balanced text leaves the stack as it was. -/
theorem openParens_of_balanced (h : Balanced cs) (position : ℕ) (waiting : List ℕ) :
    openParens position waiting cs = .ok waiting := by
  induction h generalizing position waiting with
  | nil => rfl
  | plain hc _ ih => rw [openParens_cons hc, ih]
  | paren _ _ ihinside ihrest =>
      rw [openParens_open, openParens_bind, ihinside]
      exact ihrest _ _

/-- A text that is read to its end without a stack below it closes nothing
in front of it. -/
theorem not_closedIn_of_openParens (h : openParens position [] cs = .ok waiting) :
    ¬ClosedIn cs := by
  rintro ⟨inside, rest, rfl, hinside⟩
  rw [openParens_bind, openParens_of_balanced hinside] at h
  cases h

/-- A text that leaves nothing on the stack opens nothing behind it. -/
theorem not_openedIn_of_balanced (h : Balanced cs) : ¬OpenedIn cs := by
  rintro ⟨rest, inside, rfl, hinside⟩
  have hread := openParens_of_balanced h 0 []
  rw [openParens_bind] at hread
  obtain ⟨waiting, -, hread⟩ := bind_eq_ok hread
  rw [openParens_open, openParens_of_balanced hinside] at hread
  cases hread

/-! ## What reading leaves -/

theorem byteLength_concat (cs : List Char) (c : Char) :
    Text.byteLength (cs ++ [c]) = Text.byteLength cs + c.utf8Size := by
  rw [Text.byteLength_append, Text.byteLength_cons, Text.byteLength_nil, add_zero]

/-- The text is balanced but for some opening parentheses, whose positions
wait on the stack. -/
inductive Leaves : List Char → List ℕ → Prop
  | balanced {cs : List Char} (h : Balanced cs) : Leaves cs []
  | opened {cs rest : List Char} {waiting : List ℕ} (h : Leaves cs waiting)
      (hrest : Balanced rest) :
      Leaves (cs ++ '(' :: rest) (Text.byteLength cs :: waiting)

/-- Balanced text leaves nothing more. -/
theorem Leaves.append (h : Leaves cs waiting) (hds : Balanced ds) : Leaves (cs ++ ds) waiting := by
  cases h with
  | balanced hcs => exact .balanced (hcs.append hds)
  | opened h hrest =>
      rw [List.append_assoc]
      exact .opened h (hrest.append hds)

/-- A closing parenthesis takes its partner from the stack. -/
theorem Leaves.close (h : Leaves cs (position :: waiting)) : Leaves (cs ++ [')']) waiting := by
  cases h with
  | @opened cs rest waiting h hrest =>
      rw [List.append_assoc]
      exact h.append (.paren hrest .nil)

/-- **A text that is read further**, up to its end or up to a closing
parenthesis without partner. -/
theorem openParens_cases (h : Leaves cs waiting) (ds : List Char) :
    (∃ waiting', openParens (Text.byteLength cs) waiting ds = .ok waiting' ∧
        Leaves (cs ++ ds) waiting') ∨
      ∃ front back, openParens (Text.byteLength cs) waiting ds = .error (Text.byteLength front) ∧
        cs ++ ds = front ++ ')' :: back ∧ Balanced front := by
  induction ds generalizing cs waiting with
  | nil =>
      rw [List.append_nil]
      exact Or.inl ⟨waiting, rfl, h⟩
  | cons c ds ih =>
      rw [List.append_cons]
      rcases plain_or_parenthesis c with rfl | rfl | hc
      · rw [openParens_open, ← byteLength_concat]
        exact ih (.opened h .nil)
      · cases waiting with
        | nil =>
            cases h with
            | balanced hcs => exact Or.inr ⟨cs, ds, rfl, (List.append_cons _ _ _).symm, hcs⟩
        | cons inner outer =>
            rw [openParens_close, ← byteLength_concat]
            exact ih h.close
      · rw [openParens_cons hc, ← byteLength_concat]
        exact ih (h.append (.plain hc .nil))

/-! ## What has no partner -/

/-- The positions on the stack lie in the text. -/
theorem Leaves.lt (h : Leaves text waiting) (hi : i ∈ waiting) : i < Text.byteLength text := by
  have hopen : 0 < '('.utf8Size := Char.utf8Size_pos _
  induction h with
  | balanced _ => cases hi
  | opened _ _ ih =>
      rw [Text.byteLength_append, Text.byteLength_cons]
      rcases List.mem_cons.mp hi with rfl | hi
      · omega
      · have hlt := ih hi
        omega

/-- The topmost position is the last one. -/
theorem Leaves.le_head (h : Leaves text (i :: waiting)) (hj : j ∈ i :: waiting) : j ≤ i := by
  cases h with
  | opened h _ =>
      rcases List.mem_cons.mp hj with rfl | hj
      · exact le_rfl
      · exact (h.lt hj).le

/-- Behind a parenthesis on the stack nothing closes it. -/
theorem Leaves.exists_open (h : Leaves text waiting) (hi : i ∈ waiting) :
    ∃ before after, text = before ++ '(' :: after ∧ Text.byteLength before = i ∧
      ∀ position, ∃ waiting', openParens position [] after = .ok waiting' := by
  induction h with
  | balanced _ => cases hi
  | @opened cs rest waiting h hrest ih =>
      rcases List.mem_cons.mp hi with rfl | hi
      · exact ⟨cs, rest, rfl, rfl, fun position => ⟨[], openParens_of_balanced hrest _ _⟩⟩
      · obtain ⟨before, after, rfl, hbefore, hafter⟩ := ih hi
        refine ⟨before, after ++ '(' :: rest, by simp, hbefore, fun position => ?_⟩
        obtain ⟨waiting', hread⟩ := hafter position
        refine ⟨(position + Text.byteLength after) :: waiting', ?_⟩
        rw [openParens_bind, hread]
        exact openParens_of_balanced hrest _ _

/-- **The stack holds what has no partner.** -/
theorem Leaves.unmatchedAt_iff (h : Leaves text waiting) :
    UnmatchedAt text i c ↔ c = '(' ∧ i ∈ waiting := by
  constructor
  · intro hunmatched
    induction h with
    | balanced hcs => exact absurd hunmatched hcs.not_unmatchedAt
    | @opened cs rest waiting h hrest ih =>
        obtain ⟨before, after, htext, hposition, hnone⟩ := hunmatched
        rcases split_cases htext with ⟨between, rfl, rfl⟩ | ⟨rfl, rfl, rfl⟩ | ⟨between, rfl, rfl⟩
        · -- In front of the last one: what has no partner in the whole has none here.
          have hfront : UnmatchedAt (before ++ c :: between) i c := by
            refine ⟨before, between, rfl, hposition, hnone.imp_left fun hopen => ?_⟩
            exact ⟨hopen.1, fun hclosed => hopen.2 (hclosed.append _)⟩
          obtain ⟨hc, hi⟩ := ih hfront
          exact ⟨hc, List.mem_cons_of_mem _ hi⟩
        · exact ⟨rfl, by rw [← hposition]; exact List.mem_cons_self⟩
        · -- Behind it everything is balanced.
          obtain ⟨hopen, hclose⟩ := hrest.partner rfl
          rcases hnone with ⟨hc, hclosed⟩ | ⟨hc, hopened⟩
          · exact absurd (hopen hc) hclosed
          · exact absurd (by simpa using (hclose hc).append (cs ++ ['('])) hopened
  · rintro ⟨rfl, hi⟩
    obtain ⟨before, after, rfl, hbefore, hafter⟩ := h.exists_open hi
    obtain ⟨waiting', hread⟩ := hafter 0
    exact ⟨before, after, rfl, hbefore, Or.inl ⟨rfl, not_closedIn_of_openParens hread⟩⟩

/-- A closing parenthesis behind a balanced text has no partner. -/
theorem unmatchedAt_close (h : Balanced front) :
    UnmatchedAt (front ++ ')' :: back) (Text.byteLength front) ')' :=
  ⟨front, back, rfl, rfl, Or.inr ⟨rfl, not_openedIn_of_balanced h⟩⟩

/-- Nothing in front of it has none. -/
theorem le_of_unmatchedAt (h : Balanced front)
    (hunmatched : UnmatchedAt (front ++ ')' :: back) j c) : Text.byteLength front ≤ j := by
  obtain ⟨before, after, htext, rfl, hnone⟩ := hunmatched
  rcases split_cases htext with ⟨between, rfl, rfl⟩ | ⟨rfl, -, -⟩ | ⟨between, rfl, -⟩
  · exact absurd hnone (not_unmatched_front h)
  · exact le_rfl
  · rw [Text.byteLength_append]
    exact Nat.le_add_right _ _

/-! ## What is reported -/

/-- **The three outcomes.** -/
theorem checkParens_cases (text : List Char) :
    (checkParens text = .ok () ∧ Balanced text) ∨
      (∃ front back, text = front ++ ')' :: back ∧ Balanced front ∧
        checkParens text = .error (.malformed (Text.byteLength front) .unmatchedClose)) ∨
      ∃ i waiting, Leaves text (i :: waiting) ∧
        checkParens text = .error (.malformed i .unmatchedOpen) := by
  have hstart : Leaves [] [] := .balanced .nil
  unfold checkParens
  rcases openParens_cases hstart text with
    ⟨waiting, hread, hleaves⟩ | ⟨front, back, hread, htext, hfront⟩ <;>
    rw [Text.byteLength_nil] at hread <;> rw [hread]
  · cases waiting with
    | nil =>
        cases hleaves with
        | balanced h => exact Or.inl ⟨rfl, h⟩
    | cons i waiting => exact Or.inr (Or.inr ⟨i, waiting, hleaves, rfl⟩)
  · exact Or.inr (Or.inl ⟨front, back, htext, hfront, rfl⟩)

/-- **The check passes exactly the balanced texts.** -/
theorem checkParens_eq_ok_iff (text : List Char) : checkParens text = .ok () ↔ Balanced text := by
  constructor
  · intro h
    rcases checkParens_cases text with
      ⟨-, hbalanced⟩ | ⟨front, back, -, -, herror⟩ | ⟨i, waiting, -, herror⟩
    · exact hbalanced
    · rw [herror] at h
      cases h
    · rw [herror] at h
      cases h
  · intro h
    rw [checkParens, openParens_of_balanced h]

/-- A closing parenthesis is reported if it is the first one without
partner. -/
theorem checkParens_eq_unmatchedClose_iff (text : List Char) (i : ℕ) :
    checkParens text = .error (.malformed i .unmatchedClose) ↔
      UnmatchedAt text i ')' ∧ ∀ j c, UnmatchedAt text j c → i ≤ j := by
  rcases checkParens_cases text with
    ⟨hok, hbalanced⟩ | ⟨front, back, rfl, hfront, herror⟩ | ⟨k, waiting, hleaves, herror⟩
  · rw [hok]
    exact iff_of_false nofun fun h => hbalanced.not_unmatchedAt h.1
  · rw [herror]
    constructor
    · rintro ⟨⟩
      exact ⟨unmatchedAt_close hfront, fun j c => le_of_unmatchedAt hfront⟩
    · rintro ⟨hclose, hfirst⟩
      have hle : i ≤ Text.byteLength front := hfirst _ _ (unmatchedAt_close hfront)
      rw [le_antisymm hle (le_of_unmatchedAt hfront hclose)]
  · rw [herror]
    exact iff_of_false nofun fun h => absurd (hleaves.unmatchedAt_iff.mp h.1).1 (by decide)

/-- An opening parenthesis is reported if it is the last one without
partner, and no closing one lacks its partner. -/
theorem checkParens_eq_unmatchedOpen_iff (text : List Char) (i : ℕ) :
    checkParens text = .error (.malformed i .unmatchedOpen) ↔
      UnmatchedAt text i '(' ∧ ∀ j c, UnmatchedAt text j c → c = '(' ∧ j ≤ i := by
  rcases checkParens_cases text with
    ⟨hok, hbalanced⟩ | ⟨front, back, rfl, hfront, herror⟩ | ⟨k, waiting, hleaves, herror⟩
  · rw [hok]
    exact iff_of_false nofun fun h => hbalanced.not_unmatchedAt h.1
  · rw [herror]
    exact iff_of_false nofun fun h =>
      absurd (h.2 _ _ (unmatchedAt_close hfront)).1 (by decide)
  · rw [herror]
    have hlast : UnmatchedAt text k '(' := hleaves.unmatchedAt_iff.mpr ⟨rfl, List.mem_cons_self⟩
    constructor
    · rintro ⟨⟩
      refine ⟨hlast, fun j c h => ?_⟩
      obtain ⟨hc, hj⟩ := hleaves.unmatchedAt_iff.mp h
      exact ⟨hc, hleaves.le_head hj⟩
    · rintro ⟨hopen, hall⟩
      have hle : i ≤ k := hleaves.le_head (hleaves.unmatchedAt_iff.mp hopen).2
      rw [le_antisymm hle (hall k '(' hlast).2]

/-- **What is reported.**  A text passes if it is balanced.  Otherwise the
parenthesis that is reported has no partner, and the report names it: it is
the first one if that is a closing one, and else the last of all, which are
then opening ones.  So it is the first one exactly if it is a closing one,
or the only one. -/
theorem checkParens_reports (text : List Char) :
    (checkParens text = .ok () ↔ Balanced text) ∧
    (∀ error, checkParens text = .error error → ∃ i,
      error = .malformed i .unmatchedClose ∨ error = .malformed i .unmatchedOpen) ∧
    (∀ i, checkParens text = .error (.malformed i .unmatchedClose) ↔
      UnmatchedAt text i ')' ∧ ∀ j c, UnmatchedAt text j c → i ≤ j) ∧
    (∀ i, checkParens text = .error (.malformed i .unmatchedOpen) ↔
      UnmatchedAt text i '(' ∧ ∀ j c, UnmatchedAt text j c → c = '(' ∧ j ≤ i) ∧
    ∀ i fault, checkParens text = .error (.malformed i fault) →
      ((∀ j c, UnmatchedAt text j c → i ≤ j) ↔
        fault = .unmatchedClose ∨ ∀ j c, UnmatchedAt text j c → j = i) := by
  have hkinds : ∀ error, checkParens text = .error error → ∃ i,
      error = .malformed i .unmatchedClose ∨ error = .malformed i .unmatchedOpen := by
    intro error h
    rcases checkParens_cases text with
      ⟨hok, -⟩ | ⟨front, back, -, -, herror⟩ | ⟨i, waiting, -, herror⟩
    · rw [hok] at h
      cases h
    · exact ⟨_, Or.inl (Except.error.inj (h.symm.trans herror))⟩
    · exact ⟨_, Or.inr (Except.error.inj (h.symm.trans herror))⟩
  refine ⟨checkParens_eq_ok_iff text, hkinds, checkParens_eq_unmatchedClose_iff text,
    checkParens_eq_unmatchedOpen_iff text, fun i fault h => ?_⟩
  obtain ⟨k, hclose | hopen⟩ := hkinds _ h
  · obtain ⟨rfl, rfl⟩ := Error.malformed.inj hclose
    exact iff_of_true ((checkParens_eq_unmatchedClose_iff text i).mp h).2 (Or.inl rfl)
  · obtain ⟨rfl, rfl⟩ := Error.malformed.inj hopen
    have hlast := ((checkParens_eq_unmatchedOpen_iff text i).mp h).2
    constructor
    · intro hfirst
      exact Or.inr fun j c hj => le_antisymm (hlast j c hj).2 (hfirst j c hj)
    · rintro (hfault | honly) j c hj
      · cases hfault
      · exact (honly j c hj).ge

/-- Of two opening parentheses the second one is reported. -/
theorem checkParens_two_open :
    ∃ i j, checkParens ['(', '('] = .error (.malformed i .unmatchedOpen) ∧
      UnmatchedAt ['(', '('] j '(' ∧ j < i := by
  have hleaves : Leaves ['(', '('] [1, 0] := .opened (.opened (.balanced .nil) .nil) .nil
  exact ⟨1, 0, rfl, hleaves.unmatchedAt_iff.mpr ⟨rfl, by decide⟩, by decide⟩

end Expr

end Univariate
