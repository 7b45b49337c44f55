import Univariate.Proofs.Expr.Parentheses

/-!
# Where tokens stand

The lexer counts bytes while it takes characters, so whatever it reports as
a position has whole characters in front of it.

* `OnBoundary` — a byte offset between two characters of a text;
* `SyntaxFault.IsLexical` — the failures that the lexer has;
* `Token.lexFrom_boundaries` — tokens and failures stand on boundaries;
* `Token.isSpacing_of_lexFrom` — a text without tokens is spacing.
-/

namespace Univariate

/-- The byte offset lies in the text, in front of a character or at the
end. -/
def OnBoundary (text : String) (position : ℕ) : Prop :=
  String.Pos.Raw.IsValid text ⟨position⟩

variable {text : String} {position : ℕ} {name cs front back : List Char} {ls : List Lexeme}

theorem Text.utf8ByteSize_ofList (cs : List Char) :
    (String.ofList cs).utf8ByteSize = Text.byteLength cs := by
  rw [String.utf8ByteSize_ofList]
  induction cs with
  | nil => rfl
  | cons c cs ih => rw [String.utf8Len_cons, ih, Text.byteLength_cons, add_comm]

/-- The bytes of whole characters reach to a boundary. -/
theorem onBoundary_of_toList (h : text.toList = front ++ back) :
    OnBoundary text (Text.byteLength front) := by
  refine String.Pos.Raw.isValid_iff_exists_append.mpr
    ⟨String.ofList front, String.ofList back, ?_, ?_⟩
  · rw [← String.ofList_append, ← h, String.ofList_toList]
  · rw [String.rawEndPos, Text.utf8ByteSize_ofList]

/-- Positions between characters lie within the text. -/
theorem OnBoundary.le (h : OnBoundary text position) : position ≤ text.utf8ByteSize :=
  h.le_utf8ByteSize

/-- The failure is one of the lexer. -/
def SyntaxFault.IsLexical : SyntaxFault → Prop
  | .badLiteral _ | .unknownName .. | .strayCharacter _ => True
  | _ => False

namespace Token

/-- Every fault of a word is a lexical one. -/
theorem isLexical_of_scan {c : Char} {fault : SyntaxFault} (h : scan name c cs = .error fault) :
    fault.IsLexical := by
  unfold scan at h
  split at h
  · cases h
  · dsimp only at h
    split_ifs at h with hmantissa hname hvar
    · split at h
      · cases h
      · exact Except.error.inj h ▸ trivial
    · exact Except.error.inj h ▸ trivial
    · exact Except.error.inj h ▸ trivial

/-- **Tokens and failures stand on boundaries.** -/
theorem lexFrom_boundaries {failure : Option Error} (htext : text.toList = front ++ cs)
    (hlex : lexFrom name (Text.byteLength front) cs = (ls, failure)) :
    (∀ lexeme ∈ ls, OnBoundary text lexeme.start ∧ OnBoundary text lexeme.stop) ∧
      ∀ error ∈ failure, ∃ p fault,
        error = .malformed p fault ∧ fault.IsLexical ∧ OnBoundary text p := by
  generalize hposition : Text.byteLength front = position at hlex
  fun_induction lexFrom name position cs generalizing front ls failure with
  | case1 position =>
      obtain ⟨rfl, rfl⟩ := Prod.mk.inj hlex
      exact ⟨List.forall_mem_nil _, fun error herror => absurd herror (Option.not_mem_none error)⟩
  | case2 position c cs hspacing ih =>
      have hsplit : text.toList = (front ++ [c]) ++ cs := by rw [htext, List.append_cons]
      exact ih hsplit (by rw [Expr.byteLength_concat, hposition]) hlex
  | case3 position c cs hspacing fault hscan =>
      obtain ⟨rfl, rfl⟩ := Prod.mk.inj hlex
      refine ⟨List.forall_mem_nil _, fun error herror => ?_⟩
      obtain rfl := Option.some.inj herror
      exact ⟨position, fault, rfl, isLexical_of_scan hscan,
        hposition ▸ onBoundary_of_toList htext⟩
  | case4 position c cs hspacing token tail hscan stop rest failure' hrest =>
      rename_i ih
      obtain ⟨rfl, rfl⟩ := Prod.mk.inj hlex
      have hsplit : text.toList = (front ++ c :: cs.take tail) ++ cs.drop tail := by
        rw [htext, List.append_assoc, List.cons_append, List.take_append_drop]
      have hstop : Text.byteLength (front ++ c :: cs.take tail) = stop := by
        rw [Text.byteLength_append, hposition]
      obtain ⟨hlexemes, hfailure⟩ := ih hsplit hstop hrest
      refine ⟨fun lexeme hlexeme => ?_, hfailure⟩
      rcases List.mem_cons.mp hlexeme with rfl | hlexeme
      · exact ⟨hposition ▸ onBoundary_of_toList htext, hstop ▸ onBoundary_of_toList hsplit⟩
      · exact hlexemes lexeme hlexeme

/-- A text without tokens and without a failure is spacing. -/
theorem isSpacing_of_lexFrom (hlex : lexFrom name position cs = ([], none)) :
    ∀ c ∈ cs, isSpacing c = true := by
  fun_induction lexFrom name position cs with
  | case1 position => exact List.forall_mem_nil _
  | case2 position c cs hspacing ih => exact List.forall_mem_cons.mpr ⟨hspacing, ih hlex⟩
  | case3 position c cs hspacing fault hscan => cases hlex
  | case4 position c cs hspacing token tail hscan => cases hlex

/-- Spacing is blank. -/
theorem isBlank_of_isSpacing {c : Char} (h : isSpacing c = true) : Text.isBlank c = true := by
  simp only [isSpacing, Bool.or_eq_true, beq_iff_eq] at h
  rcases h with ((rfl | rfl) | rfl) | rfl <;> decide

end Token

end Univariate
