import ToySQL.Proof.KeywordCase

/-!
# Layout and keyword case do not matter

* `Rendering.calls_text`: the lexer returns the tokens that were written, whatever the
  whitespace, and then `END` forever; two renderings whose tokens differ only in the
  letter case of keywords are parsed to the same object.
-/

namespace ToySQL

/-- **Lexing undoes rendering**, and the parser sees neither the layout nor the case of
the keywords. -/
theorem Rendering.calls_text (r : Rendering) :
    (∀ n, Lexer.calls (r.tokens.length + n) ⟨r.text, 0⟩ = r.tokens ++ List.replicate n ⟨.END, []⟩) ∧
      ∀ r' : Rendering, KeywordCase r.tokens r'.tokens → Parser.parse r.text =
        Parser.parse r'.text := by
  constructor
  · intro n
    have hrest : Lexer.rest ⟨r.text, 0⟩ = r.text := rfl
    rw [Lexer.calls_eq _ (Nat.zero_le _), hrest, r.tokensOf_text, List.take_append,
      List.take_of_length_le (Nat.le_add_right _ _), Nat.add_sub_cancel_left, List.take_replicate,
      Nat.min_eq_left (Nat.le_add_left _ _)]
    rfl
  · intro r' h
    apply parse_keywordCase
    rw [r.tokensOf_text, r'.tokensOf_text]
    exact h

/-- `DELETE FROM t` with a single space between the words. -/
def Rendering.deleteUpper : Rendering where
  items := [([], .word (str "DELETE") []), ([32], .word (str "FROM") []),
    ([32], .word (str "t") [])]
  last := []
  wellFormed := by decide +kernel
  blank := by decide +kernel
  blank_last := by simp
  apart := by simp

/-- `delete from t` over three lines. -/
def Rendering.deleteLower : Rendering where
  items := [([10], .word (str "delete") []), ([10], .word (str "from") []),
    ([10], .word (str "t") [])]
  last := [10]
  wellFormed := by decide +kernel
  blank := by decide +kernel
  blank_last := by decide +kernel
  apart := by simp

theorem Rendering.calls_text_delete :
    Parser.parse Rendering.deleteUpper.text = Parser.parse Rendering.deleteLower.text := by
  apply Rendering.deleteUpper.calls_text.2
  have hdelete : Token.SameWord ⟨.Word, str "DELETE"⟩ ⟨.Word, str "delete"⟩ :=
    ⟨rfl, rfl, by decide +kernel⟩
  have hfrom : Token.SameWord ⟨.Word, str "FROM"⟩ ⟨.Word, str "from"⟩ :=
    ⟨rfl, rfl, by decide +kernel⟩
  have hat : keywordAt (Token.text ⟨.Word, str "DELETE"⟩) 1 = true := by decide +kernel
  have hupper : Rendering.deleteUpper.tokens.length = 3 := rfl
  have hlower : Rendering.deleteLower.tokens.length = 3 := rfl
  refine ⟨hupper.trans hlower.symm, fun i t t' ht ht' => ?_⟩
  match i with
  | 0 =>
    obtain rfl := Option.some.inj ht
    obtain rfl := Option.some.inj ht'
    exact Or.inr ⟨⟨_, rfl, rfl⟩, hdelete⟩
  | 1 =>
    obtain rfl := Option.some.inj ht
    obtain rfl := Option.some.inj ht'
    exact Or.inr ⟨⟨_, rfl, hat⟩, hfrom⟩
  | 2 =>
    obtain rfl := Option.some.inj ht
    obtain rfl := Option.some.inj ht'
    exact Or.inl rfl
  | i + 3 => cases ht

end ToySQL
