import ToySQL.Proof.Parsing

/-!
# The parser and the grammar

* `parsesExactly_of_not_select`: an input that does not start with `SELECT` is accepted
  exactly when its tokens are a statement, with the object of that statement.
* `parsesExactly_iff`: so is an input that starts with `SELECT`, unless it has a quoted
  literal where `FROM` should stand.
-/

namespace ToySQL

/-- The lexer over an input gives its tokens. -/
theorem tokens_input (input : Str) : Lexer.tokens ⟨input, 0⟩ = tokensOf input :=
  Lexer.tokens_eq (Nat.zero_le _)

/-- Without a quoted `FROM` the readers find what the grammar has. -/
theorem parsesExactly_of_not_quotes {input : Str} (h : ¬ QuotesFrom input) :
    ParsesExactly input := by
  have hn := Nat.lt_succ_of_le (length_tokensOf input)
  refine ⟨fun stmt hg => ?_, fun hnone => ?_, fun stmt _ => json_ne_object stmt⟩
  · rw [tokens_input] at hg
    rw [Parser.parse_read, readStatement_complete hn hg]
    rfl
  · rw [Parser.parse_read]
    rcases hr : readStatement (input.length + 1) (tokensOf input) with _ | stmt
    · rfl
    exfalso
    have hgrammar : ¬ Grammar (tokensOf input) stmt := by rw [← tokens_input]; exact hnone stmt
    rcases readStatement_sound hn hr with hg | hs
    · exact hgrammar hg
    rcases hs.word_or_quoted (type_of_from input) with hs | hs
    · exact hgrammar (.select hs)
    · exact h ⟨stmt, by rw [tokens_input]; exact hs⟩

/-- A quoted `FROM` makes the parser accept what is no statement. -/
theorem QuotesFrom.not_parsesExactly {input : Str} (h : QuotesFrom input) :
    ¬ ParsesExactly input := by
  obtain ⟨stmt, hs⟩ := h
  intro hp
  have hn := Nat.lt_succ_of_le (length_tokensOf input)
  have hread := readStatement_select (fun t ht => ⟨ht.2, by rw [ht.1]; simp⟩)
    (by rw [tokens_input]; exact hn) hs
  have hno := hp.rejects fun _ => hs.not_grammar
  rw [Parser.parse_read, ← tokens_input, hread] at hno
  exact json_ne_object stmt (Except.ok.inj hno)

/-! ## Statements other than `SELECT` -/

/-- **`CREATE`, `INSERT`, `UPDATE` and `DELETE` are accepted exactly by the grammar.** -/
theorem parsesExactly_of_not_select (input : Str) (h : ¬ StartsSelect input) :
    ParsesExactly input := by
  apply parsesExactly_of_not_quotes
  rintro ⟨stmt, hs⟩
  obtain ⟨c, ts, hts, hc⟩ := hs.head
  exact h ⟨c, by rw [hts]; rfl, hc⟩

theorem parsesExactly_delete : ParsesExactly (str "DELETE FROM t") := by
  apply parsesExactly_of_not_select
  rintro ⟨t, ht, hk⟩
  have htokens : (Lexer.tokens ⟨str "DELETE FROM t", 0⟩).head? = some ⟨.Word, str "DELETE"⟩ := by
    decide
  rw [htokens] at ht
  obtain rfl := Option.mem_some_iff.1 ht
  exact absurd hk.2 (by decide)

/-! ## `SELECT` -/

/-- **`SELECT` is accepted exactly by the grammar, but for a quoted `FROM`.** -/
theorem parsesExactly_iff (input : Str) : ParsesExactly input ↔ ¬ QuotesFrom input :=
  ⟨fun h hq => hq.not_parsesExactly h, parsesExactly_of_not_quotes⟩

/-- A quoted `FROM` is accepted in the place of the keyword. -/
theorem not_parsesExactly_quoted :
    StartsSelect (str "SELECT a \"FROM\" t") ∧ ¬ ParsesExactly (str "SELECT a \"FROM\" t") ∧
      Parser.parse (str "SELECT a \"FROM\" t") =
        .ok (Statement.select [str "a"] (str "t") []).json := by
  have hquotes : QuotesFrom (str "SELECT a \"FROM\" t") := by
    refine ⟨.select [str "a"] (str "t") [], ?_⟩
    have htokens : Lexer.tokens ⟨str "SELECT a \"FROM\" t", 0⟩ = ⟨.Word, str "SELECT"⟩ ::
        [⟨.Word, str "a"⟩] ++ ⟨.Literal, str "FROM"⟩ :: ⟨.Word, str "t"⟩ :: [] := by decide
    rw [htokens]
    exact .mk ⟨rfl, by decide⟩ (.some (.one (.mk rfl))) ⟨rfl, by decide⟩ rfl .absent
  exact ⟨⟨⟨.Word, str "SELECT"⟩, by decide, rfl, by decide⟩, hquotes.not_parsesExactly, rfl⟩

end ToySQL
