import Univariate.Proofs.Computation
import Univariate.Proofs.Expr.Grammar

/-!
# The parser reads what the grammar derives

Reading the tokens of a derivation leaves the stack below untouched and
puts on it only operators that bind as tightly as the nonterminal; closing
them gives the tree.  The two nonterminals that recur on the left need a
stack whose top binds more loosely, or the tokens would be taken for the
right operand of what is already there.

* `Stage.Runs` — reading tokens one by one;
* `unwind_closedAt` — closing the operators of one derivation and no more;
* `Derives.reads` — what reading a derivation leaves;
* `ofLexemes_of_derives`, `Derives.unique` — the whole text gives the tree
  of its derivation, which is therefore the only one.
-/

namespace Univariate

/-! ## Closing frames -/

/-- Closes all frames, the topmost first. -/
def closeAll (frames : List Frame) (e : Expr Float) : Except Error (Expr Float) :=
  frames.foldlM (fun e frame => frame.close e) e

/-- The lowest frame is closed last. -/
theorem closeAll_concat {frames : List Frame} {frame : Frame} {v e t : Expr Float}
    (hframes : closeAll frames v = .ok e) (hframe : frame.close e = .ok t) :
    closeAll (frames ++ [frame]) v = .ok t := by
  rw [closeAll] at hframes ⊢
  rw [List.foldlM_append, hframes]
  show (frame.close e >>= fun e => pure e) = .ok t
  rw [hframe]
  rfl

namespace Symbol

/-- Operators below this rank are waiting while a nonterminal is read. -/
def bound : Symbol → ℕ
  | atom => 0
  | power | exponent => 1
  | unary | term => 2
  | expr => 3

/-- The level at which a nonterminal that recurs on the left is closed. -/
def closedAt : Symbol → Option Level
  | term => some .product
  | expr => some .sum
  | _ => none

/-- The top of the stack does not take the first operand of the
nonterminal for its own. -/
def Loose (X : Symbol) (stack : List Frame) : Prop :=
  ∀ level ∈ X.closedAt, ∀ frame ∈ stack.head?, level.rank < frame.level.rank

/-- A nonterminal that is not closed later takes no operand from below. -/
theorem loose_of_closedAt {X : Symbol} (h : X.closedAt = none) (stack : List Frame) :
    X.Loose stack := by
  intro level hlevel
  rw [h] at hlevel
  cases hlevel

/-- A sum leaves a term to itself. -/
theorem loose_term_of_sum {l : Expr Float} {sign : SumSign} (stack : List Frame) :
    term.Loose (.sum l sign :: stack) := by
  intro level hlevel frame hframe
  cases hlevel
  cases hframe
  exact Nat.lt_succ_self 1

/-- What leaves an expression to itself leaves a term to itself. -/
theorem loose_term_of_expr (stack : List Frame) (h : expr.Loose stack) : term.Loose stack := by
  intro level hlevel frame hframe
  cases hlevel
  exact (Nat.lt_succ_self 1).trans (h .sum rfl frame hframe)

/-- The stage in which a nonterminal starts. -/
def entry : Symbol → List Frame → Stage
  | exponent => .exponent
  | _ => .operand

end Symbol

/-- Every frame binds more tightly than a bound. -/
def Within (bound : ℕ) (frames : List Frame) : Prop :=
  ∀ frame ∈ frames, frame.level.rank < bound

/-- A looser bound holds too. -/
theorem Within.mono {b c : ℕ} {frames : List Frame} (h : Within b frames) (hbc : b ≤ c) :
    Within c frames :=
  fun frame hframe => (h frame hframe).trans_le hbc

/-- A frame below the others has to keep the bound too. -/
theorem Within.concat {b : ℕ} {frames : List Frame} {frame : Frame} (h : Within b frames)
    (hframe : frame.level.rank < b) : Within b (frames ++ [frame]) := by
  intro other hother
  rcases List.mem_append.mp hother with hother | hother
  · exact h other hother
  · exact List.mem_singleton.mp hother ▸ hframe

/-- A looser frame on top ends the unwinding at once. -/
theorem unwind_loose {level : Level} {stack : List Frame} (e : Expr Float)
    (h : ∀ frame ∈ stack.head?, level.rank < frame.level.rank) :
    unwind level stack e = .ok (stack, e) := by
  cases stack with
  | nil => rfl
  | cons frame below => exact unwind_stop below e (h frame rfl)

/-- Unwinding closes the tight frames on top and goes on below them. -/
theorem unwind_append {level : Level} {frames : List Frame}
    (hwithin : Within (level.rank + 1) frames) (stack : List Frame) (v : Expr Float) :
    unwind level (frames ++ stack) v = closeAll frames v >>= unwind level stack := by
  induction frames generalizing v with
  | nil => rfl
  | cons frame frames ih =>
      have hrank : frame.level.rank ≤ level.rank :=
        Nat.lt_succ_iff.mp (hwithin frame List.mem_cons_self)
      rw [List.cons_append, unwind_cons _ v hrank, closeAll, List.foldlM_cons, bind_assoc]
      exact congrArg (frame.close v >>= ·)
        (funext (ih fun other hother => hwithin other (List.mem_cons_of_mem _ hother)))

/-- **Unwinding closes what a derivation has left, and no more.** -/
theorem unwind_frames {level : Level} {frames stack : List Frame} {v t : Expr Float}
    (hwithin : Within (level.rank + 1) frames) (hclose : closeAll frames v = .ok t)
    (hstack : ∀ frame ∈ stack.head?, level.rank < frame.level.rank) :
    unwind level (frames ++ stack) v = .ok (stack, t) := by
  rw [unwind_append hwithin, hclose]
  exact unwind_loose t hstack

/-- What a term leaves is closed by the next sign of a product, and what an
expression leaves by the next sign of a sum, a closing parenthesis or the
end. -/
theorem unwind_closedAt {X : Symbol} {level : Level} (hlevel : level ∈ X.closedAt)
    {frames stack : List Frame} {v t : Expr Float} (hwithin : Within X.bound frames)
    (hclose : closeAll frames v = .ok t) (hloose : X.Loose stack) :
    unwind level (frames ++ stack) v = .ok (stack, t) := by
  have hbound : X.bound = level.rank + 1 := by
    cases X <;> cases hlevel <;> rfl
  exact unwind_frames (hbound ▸ hwithin) hclose (hloose level hlevel)

/-! ## Reading -/

/-- How the sign of a sum is written. -/
def SumSign.token : SumSign → Token
  | .plus => .plus
  | .minus => .minus

/-- How the sign of a product is written, if it is. -/
def ProductSign.token? : ProductSign → Option Token
  | .times => some .star
  | .over => some .slash
  | .adjacent => none

namespace Stage

/-- Reading lexemes leads from one stage to another. -/
def Runs (s : Stage) (lexemes : List Lexeme) (s' : Stage) : Prop :=
  lexemes.foldlM Stage.step s = .ok s'

variable {s s' s'' : Stage} {lexeme : Lexeme} {ls ls' : List Lexeme}

/-- One token more in front. -/
theorem Runs.cons (h : s.step lexeme = .ok s') (hs : s'.Runs ls s'') :
    s.Runs (lexeme :: ls) s'' := by
  rw [Runs, List.foldlM_cons, h]
  exact hs

/-- A single token. -/
theorem Runs.single (h : s.step lexeme = .ok s') : s.Runs [lexeme] s' := .cons h rfl

/-- Runs follow one another. -/
theorem Runs.append (hs : s.Runs ls s') (hs' : s'.Runs ls' s'') : s.Runs (ls ++ ls') s'' := by
  rw [Runs] at hs
  rw [Runs, List.foldlM_append, hs]
  exact hs'

/-- A run depends on its first stage only through the first step. -/
theorem Runs.of_step_eq {first : Lexeme} {r : Stage} (h : s.step first = r.step first)
    (hr : r.Runs (first :: ls) s') : s.Runs (first :: ls) s' := by
  rw [Runs, List.foldlM_cons] at hr ⊢
  rw [h]
  exact hr

/-- Where an exponent may start without a sign, an operand may too. -/
theorem step_exponent_eq (stack : List Frame) (h : lexeme.token.StartsAtom) :
    (exponent stack).step lexeme = (operand stack).step lexeme := by
  cases htoken : lexeme.token <;> simp_all [step, Token.StartsAtom]

variable {stack below : List Frame} {v t : Expr Float}

/-- The sign of a sum closes its left operand. -/
theorem step_sum (sign : SumSign) (htoken : lexeme.token = sign.token)
    (hunwind : unwind .sum stack v = .ok (below, t)) :
    (atom stack v).step lexeme = .ok (operand (.sum t sign :: below)) := by
  cases sign <;> simp only [step, htoken, SumSign.token, pushSum, hunwind] <;> rfl

/-- An operator of products closes the products before it. -/
theorem step_product (sign : ProductSign) (htoken : some lexeme.token = sign.token?)
    (hunwind : unwind .product stack v = .ok (below, t)) :
    (atom stack v).step lexeme = .ok (operand (.product t sign :: below)) := by
  cases sign <;> cases htoken' : lexeme.token <;> rw [htoken'] at htoken <;> cases htoken <;>
    simp only [step, htoken', pushProduct, hunwind] <;> rfl

/-- Side by side, the second operand starts as after a sign. -/
theorem step_adjacent_eq (h : lexeme.token.StartsAtom)
    (hunwind : unwind .product stack v = .ok (below, t)) :
    (atom stack v).step lexeme =
      (operand (.product t .adjacent :: below)).step lexeme := by
  have hpush : pushProduct stack v .adjacent = .ok (.product t .adjacent :: below) := by
    rw [pushProduct, hunwind]
    rfl
  cases htoken : lexeme.token <;> simp only [htoken, Token.StartsAtom] at h <;>
    simp only [step, htoken, hpush] <;> rfl

end Stage

/-! ## Derivations are read -/

/-- Reading tokens as a nonterminal puts only its own operators on the
stack, and these close to a tree. -/
def Symbol.Reads (X : Symbol) (us : List Token) (t : Expr Float) : Prop :=
  ∀ (ls : List Lexeme) (stack : List Frame), ls.map Lexeme.token = us → X.Loose stack →
    ∃ frames v, (X.entry stack).Runs ls (.atom (frames ++ stack) v) ∧
      Within X.bound frames ∧ closeAll frames v = .ok t

namespace Symbol

open Stage

variable {us vs : List Token} {l r t : Expr Float}

/-- A nonterminal that stands for another one. -/
theorem Reads.unit {X Y : Symbol} (h : X.Reads us t) (hentry : X.entry = Y.entry)
    (hbound : X.bound ≤ Y.bound) (hloose : ∀ stack, Y.Loose stack → X.Loose stack) :
    Y.Reads us t := by
  intro ls stack hls hstack
  obtain ⟨frames, v, hruns, hwithin, hclose⟩ := h ls stack hls (hloose stack hstack)
  exact ⟨frames, v, hentry ▸ hruns, hwithin.mono hbound, hclose⟩

/-- **An operator in front** of what is read is read with it. -/
theorem Reads.unaryOperator {X : Symbol} {token : Token} (frame : Frame) (h : X.Reads us t)
    (hloose : ∀ stack, X.Loose stack)
    (hstep : ∀ lexeme stack, lexeme.token = token →
      (X.entry stack).step lexeme = .ok (X.entry (frame :: stack)))
    (hframe : frame.level.rank < X.bound) (hclose : frame.close t = .ok r) :
    X.Reads (token :: us) r := by
  intro ls stack hls _
  obtain ⟨lexeme, ls, rfl, htoken, hls⟩ := List.map_eq_cons_iff.mp hls
  obtain ⟨frames, v, hruns, hwithin, hframes⟩ := h ls (frame :: stack) hls (hloose _)
  refine ⟨frames ++ [frame], v, ?_, hwithin.concat hframe, closeAll_concat hframes hclose⟩
  rw [List.append_assoc]
  exact .cons (hstep lexeme stack htoken) hruns

/-- **An operator between two parts** that are read is read with them. -/
theorem Reads.binaryOperator {X Y : Symbol} {token : Token} {level : Level} (frame : Frame)
    (hl : X.Reads us l) (hr : Y.Reads vs r) (hX : X.entry = .operand) (hY : Y.entry = .operand)
    (hlevel : level ∈ X.closedAt)
    (hstep : ∀ (lexeme : Lexeme) stack below v, lexeme.token = token →
      unwind level stack v = .ok (below, l) →
        (Stage.atom stack v).step lexeme = .ok (.operand (frame :: below)))
    (hloose : ∀ stack, Y.Loose (frame :: stack)) (hbound : Y.bound ≤ X.bound)
    (hframe : frame.level.rank < X.bound) (hclose : frame.close r = .ok t) :
    X.Reads (us ++ token :: vs) t := by
  intro ls stack hls hstack
  obtain ⟨ls, rest, rfl, hus, hrest⟩ := List.map_eq_append_iff.mp hls
  obtain ⟨lexeme, ms, rfl, htoken, hms⟩ := List.map_eq_cons_iff.mp hrest
  obtain ⟨frames, v, hruns, hwithin, hframes⟩ := hl ls stack hus hstack
  obtain ⟨frames', v', hruns', hwithin', hframes'⟩ := hr ms (frame :: stack) hms (hloose stack)
  refine ⟨frames' ++ [frame], v', ?_, (hwithin'.mono hbound).concat hframe,
    closeAll_concat hframes' hclose⟩
  rw [hX] at hruns ⊢
  rw [hY] at hruns'
  rw [List.append_assoc]
  exact hruns.append
    (.cons (hstep lexeme _ stack v htoken (unwind_closedAt hlevel hwithin hframes hstack))
      hruns')

/-- **Two parts side by side** are a product. -/
theorem Reads.adjacent (hl : term.Reads us l) (hr : power.Reads vs r)
    (hstarts : ∃ first rest, vs = first :: rest ∧ first.StartsAtom) :
    term.Reads (us ++ vs) (.mul l r) := by
  intro ls stack hls hstack
  obtain ⟨first, rest, rfl, hfirst⟩ := hstarts
  obtain ⟨ls, ms, rfl, hus, hvs⟩ := List.map_eq_append_iff.mp hls
  obtain ⟨lexeme, ms, rfl, htoken, hms⟩ := List.map_eq_cons_iff.mp hvs
  obtain ⟨frames, v, hruns, hwithin, hframes⟩ := hl ls stack hus hstack
  obtain ⟨frames', v', hruns', hwithin', hframes'⟩ :=
    hr (lexeme :: ms) (.product l .adjacent :: stack) hvs (loose_of_closedAt rfl _)
  have hstep := step_adjacent_eq (htoken ▸ hfirst) (unwind_closedAt rfl hwithin hframes hstack)
  have hrank : (Frame.product l .adjacent).level.rank < term.bound := Nat.lt_succ_self 1
  refine ⟨frames' ++ [.product l .adjacent], v', ?_,
    (hwithin'.mono (by decide)).concat hrank, closeAll_concat hframes' rfl⟩
  rw [List.append_assoc]
  exact hruns.append (.of_step_eq hstep hruns')

/-- **A caret** between a base and an exponent is a power. -/
theorem Reads.raise {n : ℕ} (hl : Symbol.atom.Reads us l) (hr : Symbol.exponent.Reads vs r)
    (hn : r.IsExponent n) : power.Reads (us ++ .caret :: vs) (.pow l n) := by
  intro ls stack hls _
  obtain ⟨ls, rest, rfl, hus, hrest⟩ := List.map_eq_append_iff.mp hls
  obtain ⟨caret, ms, rfl, htoken, hms⟩ := List.map_eq_cons_iff.mp hrest
  obtain ⟨frames, v, hruns, hwithin, hframes⟩ := hl ls stack hus (loose_of_closedAt rfl _)
  -- No operator binds more tightly than an atom, so none is left to close.
  obtain rfl : frames = [] :=
    List.eq_nil_iff_forall_not_mem.mpr fun frame hframe => Nat.not_lt_zero _ (hwithin frame hframe)
  obtain rfl : v = l := Except.ok.inj hframes
  obtain ⟨frames', v', hruns', hwithin', hframes'⟩ :=
    hr ms (.power v caret.start :: stack) hms (loose_of_closedAt rfl _)
  have hrank : (Frame.power v caret.start).level.rank < Symbol.exponent.bound := Nat.one_pos
  have hclose : (Frame.power v caret.start).close r = .ok (.pow v n) := by
    rw [Frame.close, (Expr.exponentOf_eq_ok_iff r caret.start n).mpr hn]
    rfl
  refine ⟨frames' ++ [.power v caret.start], v', ?_, hwithin'.concat hrank,
    closeAll_concat hframes' hclose⟩
  rw [List.append_assoc]
  refine hruns.append (.cons ?_ hruns')
  simp only [Stage.step, htoken]
  rfl

/-- **Parentheses** around an expression make an operand of it. -/
theorem Reads.paren (h : expr.Reads us t) :
    Symbol.atom.Reads (.openParen :: (us ++ [.closeParen])) t := by
  intro ls stack hls _
  obtain ⟨openLexeme, rest, rfl, hopen, hrest⟩ := List.map_eq_cons_iff.mp hls
  obtain ⟨ls, last, rfl, hus, hlast⟩ := List.map_eq_append_iff.mp hrest
  obtain ⟨closeLexeme, none, rfl, hclose, hnone⟩ := List.map_eq_cons_iff.mp hlast
  obtain rfl := List.map_eq_nil_iff.mp hnone
  have hloose : expr.Loose (.paren :: stack) := by
    intro level hlevel frame hframe
    cases hlevel
    cases hframe
    exact Nat.lt_succ_self 2
  obtain ⟨frames, v, hruns, hwithin, hframes⟩ := h ls (.paren :: stack) hus hloose
  have hunwind := unwind_closedAt rfl hwithin hframes hloose
  refine ⟨[], t, .cons ?_ (hruns.append (.single ?_)), fun _ h => (List.not_mem_nil h).elim, rfl⟩
  · simp only [Symbol.entry, Stage.step, hopen]
  · simp only [Stage.step, hclose, hunwind]
    rfl

end Symbol

/-- **Reading a derivation leaves its tree on the stack.** -/
theorem Derives.reads {X : Symbol} {us : List Token} {t : Expr Float} (h : Derives X us t) :
    X.Reads us t := by
  induction h with
  | @add _ _ l _ _ _ ihl ihr =>
      exact .binaryOperator (.sum l .plus) ihl ihr rfl rfl rfl
        (fun _ _ _ _ => Stage.step_sum .plus) Symbol.loose_term_of_sum (by decide)
        (Nat.lt_succ_self 2) rfl
  | @sub _ _ l _ _ _ ihl ihr =>
      exact .binaryOperator (.sum l .minus) ihl ihr rfl rfl rfl
        (fun _ _ _ _ => Stage.step_sum .minus) Symbol.loose_term_of_sum (by decide)
        (Nat.lt_succ_self 2) rfl
  | term _ ih => exact ih.unit rfl (by decide) Symbol.loose_term_of_expr
  | @mul _ _ l _ _ _ ihl ihr =>
      exact .binaryOperator (.product l .times) ihl ihr rfl rfl rfl
        (fun _ _ _ _ htoken => Stage.step_product .times (congrArg some htoken))
        (fun _ => Symbol.loose_of_closedAt rfl _) le_rfl (Nat.lt_succ_self 1) rfl
  | @div _ _ l _ _ _ ihl ihr =>
      exact .binaryOperator (.product l .over) ihl ihr rfl rfl rfl
        (fun _ _ _ _ htoken => Stage.step_product .over (congrArg some htoken))
        (fun _ => Symbol.loose_of_closedAt rfl _) le_rfl (Nat.lt_succ_self 1) rfl
  | adjacent _ hr ihl ihr => exact ihl.adjacent ihr (hr.starts (Or.inl rfl))
  | unary _ ih => exact ih.unit rfl le_rfl fun stack _ => Symbol.loose_of_closedAt rfl stack
  | neg _ ih =>
      refine ih.unaryOperator .minus (Symbol.loose_of_closedAt rfl) ?_ (Nat.lt_succ_self 1) rfl
      intro lexeme stack htoken
      simp only [Symbol.entry, Stage.step, htoken]
  | pos _ ih =>
      intro ls stack hls _
      obtain ⟨lexeme, ls, rfl, htoken, hls⟩ := List.map_eq_cons_iff.mp hls
      obtain ⟨frames, v, hruns, hwithin, hframes⟩ :=
        ih ls stack hls (Symbol.loose_of_closedAt rfl stack)
      refine ⟨frames, v, .cons ?_ hruns, hwithin, hframes⟩
      simp only [Symbol.entry, Stage.step, htoken]
  | power _ ih => exact ih.unit rfl (by decide) fun stack _ => Symbol.loose_of_closedAt rfl stack
  | raise _ _ hn ihbase ihe => exact ihbase.raise ihe hn
  | atom _ ih => exact ih.unit rfl (by decide) fun stack _ => Symbol.loose_of_closedAt rfl stack
  | exponentNeg _ ih =>
      refine ih.unaryOperator .exponentMinus (Symbol.loose_of_closedAt rfl) ?_ Nat.one_pos rfl
      intro lexeme stack htoken
      simp only [Symbol.entry, Stage.step, htoken]
  | exponent h ih =>
      intro ls stack hls _
      obtain ⟨frames, v, hruns, hwithin, hframes⟩ :=
        ih ls stack hls (Symbol.loose_of_closedAt rfl stack)
      obtain ⟨first, rest, rfl, hfirst⟩ := h.starts (Or.inl rfl)
      obtain ⟨lexeme, ls, rfl, htoken, -⟩ := List.map_eq_cons_iff.mp hls
      exact ⟨frames, v, .of_step_eq (Stage.step_exponent_eq stack (htoken ▸ hfirst)) hruns,
        hwithin, hframes⟩
  | number value =>
      intro ls stack hls _
      obtain ⟨lexeme, none, rfl, htoken, hnone⟩ := List.map_eq_cons_iff.mp hls
      obtain rfl := List.map_eq_nil_iff.mp hnone
      refine ⟨[], .const value, .single ?_, fun _ h => (List.not_mem_nil h).elim, rfl⟩
      simp only [Symbol.entry, Stage.step, htoken, List.nil_append]
  | var =>
      intro ls stack hls _
      obtain ⟨lexeme, none, rfl, htoken, hnone⟩ := List.map_eq_cons_iff.mp hls
      obtain rfl := List.map_eq_nil_iff.mp hnone
      refine ⟨[], .var, .single ?_, fun _ h => (List.not_mem_nil h).elim, rfl⟩
      simp only [Symbol.entry, Stage.step, htoken, List.nil_append]
  | paren _ ih => exact ih.paren

/-- **The parser answers with the tree that the grammar derives.** -/
theorem ofLexemes_of_derives {ls : List Lexeme} {t : Expr Float}
    (h : Derives .expr (ls.map Lexeme.token) t) : Expr.ofLexemes ls none = .ok t := by
  have hloose : Symbol.expr.Loose [] := fun _ _ => nofun
  obtain ⟨frames, v, hruns, hwithin, hclose⟩ := h.reads ls [] rfl hloose
  have hunwind := unwind_closedAt rfl hwithin hclose hloose
  have hrun : ls.foldlM Stage.step .start = .ok (.atom (frames ++ []) v) := hruns
  rw [Expr.ofLexemes, hrun]
  show (Stage.atom (frames ++ []) v).finish (Expr.lastStop ls) = .ok t
  rw [Stage.finish, hunwind]
  rfl

/-- **The grammar is unambiguous**: tokens are an expression in one way at
most. -/
theorem Derives.unique {us : List Token} {t t' : Expr Float} (h : Derives .expr us t)
    (h' : Derives .expr us t') : t = t' := by
  have hmap : us = (us.map fun token => (⟨0, token, 0⟩ : Lexeme)).map Lexeme.token := by
    rw [List.map_map]
    exact (List.map_id us).symm
  rw [hmap] at h h'
  exact Except.ok.inj ((ofLexemes_of_derives h).symm.trans (ofLexemes_of_derives h'))

end Univariate
