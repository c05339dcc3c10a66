import ToySQL.Proof.Lexing

/-!
# The lexer partitions its input

`Lexeme` says how a token is written, and what may follow it. `Lexer.partition`: the calls
of `nextToken` divide the input into whitespace and lexemes, without a gap and up to its
end, and from there on return `END`.
-/

namespace ToySQL

/-- The token is written as the lexeme, with the input `rest` after it. -/
inductive Lexeme : Token → Str → Str → Prop where
  /-- All digits that follow each other. -/
  | number {digits rest : Str} : digits ≠ [] → (∀ c ∈ digits, isDigit c = true) →
      (∀ c ∈ rest.head?, isDigit c = false) → Lexeme ⟨.Number, digits⟩ digits rest
  /-- Letters and then digits, which the next byte does not continue. -/
  | word {letters digits rest : Str} : letters ≠ [] → (∀ c ∈ letters, isAlpha c = true) →
      (∀ c ∈ digits, isDigit c = true) →
      (∀ c ∈ rest.head?, isDigit c = false ∧ (digits = [] → isAlpha c = false)) →
      Lexeme ⟨.Word, letters ++ digits⟩ (letters ++ digits) rest
  | literal {text rest : Str} : '"'.toUInt8 ∉ text →
      Lexeme ⟨.Literal, text⟩ ('"'.toUInt8 :: text ++ ['"'.toUInt8]) rest
  /-- Without a second quote, the rest of the input is consumed. -/
  | unterminated {text : Str} : '"'.toUInt8 ∉ text → Lexeme ⟨.Invalid, []⟩ ('"'.toUInt8 :: text) []
  | single {c : UInt8} {rest : Str} : isDigit c = false → isAlpha c = false → c ≠ '"'.toUInt8 →
      Lexeme (singleToken c) [c] rest

namespace Lexeme

variable {s : Str}

theorem head_dropWhile (b : UInt8 → Bool) (s : Str) : ∀ c ∈ (s.dropWhile b).head?, b c = false := by
  intro c hc
  have hne : s.dropWhile b ≠ [] := by
    intro h
    rw [h] at hc
    cases hc
  have hhead := List.head_dropWhile_not b hne
  rw [List.head?_eq_some_head hne, Option.mem_some_iff] at hc
  rw [← hc]
  exact hhead

/-- The lexeme of a word. -/
theorem of_word (h : s.takeWhile isAlpha ≠ []) : ∃ lexeme, s = lexeme ++ (lexWord s).2 ∧
    Lexeme (lexWord s).1 lexeme (lexWord s).2 := by
  refine ⟨s.takeWhile isAlpha ++ (s.dropWhile isAlpha).takeWhile isDigit, ?_,
    word h (fun _ => List.mem_takeWhile_imp)
    (fun _ => List.mem_takeWhile_imp) fun c hc => ⟨head_dropWhile isDigit _ c hc, fun hnil => ?_⟩⟩
  · unfold lexWord
    rw [List.append_assoc, List.takeWhile_append_dropWhile, List.takeWhile_append_dropWhile]
  · -- without digits, the letters end where the word ends
    have hsame : (lexWord s).2 = s.dropWhile isAlpha := by
      have happend := List.takeWhile_append_dropWhile (p := isDigit) (l := s.dropWhile isAlpha)
      rw [hnil] at happend
      exact happend
    rw [hsame] at hc
    exact head_dropWhile isAlpha s c hc

/-- The lexeme of a literal, or of a quote without a second one. -/
theorem of_literal (s : Str) : ∃ lexeme, '"'.toUInt8 :: s = lexeme ++ (lexLiteral s).2 ∧
    Lexeme (lexLiteral s).1 lexeme (lexLiteral s).2 := by
  have happend := List.takeWhile_append_dropWhile (p := fun c => decide (c ≠ '"'.toUInt8)) (l := s)
  have hquote := delim_takeWhile s '"'.toUInt8
  unfold lexLiteral
  by_cases hend : s.dropWhile (· ≠ '"'.toUInt8) = []
  · rw [if_pos hend]
    rw [hend, List.append_nil] at happend
    refine ⟨_, (List.append_nil _).symm, ?_⟩
    rw [← happend]
    exact unterminated hquote
  · rw [if_neg hend]
    refine ⟨_, ?_, literal hquote⟩
    have hhead : (s.dropWhile (· ≠ '"'.toUInt8)).head hend = '"'.toUInt8 := by
      have hnot := List.head_dropWhile_not (fun c => decide (c ≠ '"'.toUInt8)) hend
      simpa using hnot
    have htail : '"'.toUInt8 :: (s.dropWhile (· ≠ '"'.toUInt8)).tail =
      s.dropWhile (· ≠ '"'.toUInt8) :=
      (congrArg (· :: _) hhead).symm.trans (List.cons_head_tail hend)
    rw [List.append_assoc, List.singleton_append, htail, List.cons_append, happend]

/-- The lexeme of the token that starts with `c`. -/
theorem of_lexFrom (c : UInt8) (s : Str) : ∃ lexeme, c :: s = lexeme ++ (lexFrom c s).2 ∧
    Lexeme (lexFrom c s).1 lexeme (lexFrom c s).2 := by
  unfold lexFrom
  split_ifs with hd ha hq
  · refine ⟨_, (List.takeWhile_append_dropWhile).symm,
      number ?_ (fun _ => List.mem_takeWhile_imp) (head_dropWhile isDigit _)⟩
    rw [List.takeWhile_cons, if_pos hd]
    exact List.cons_ne_nil _ _
  · refine of_word ?_
    rw [List.takeWhile_cons, if_pos ha]
    exact List.cons_ne_nil _ _
  · rw [hq]
    exact of_literal s
  · exact ⟨[c], rfl, single (Bool.eq_false_iff.2 hd) (Bool.eq_false_iff.2 ha) hq⟩

theorem ne_nil {token : Token} {lexeme rest : Str} (h : Lexeme token lexeme rest) :
    lexeme ≠ [] := by
  cases h with
  | number hne => exact hne
  | word hne => exact List.append_ne_nil_of_left_ne_nil hne _
  | literal _ => exact List.cons_ne_nil _ _
  | unterminated _ => exact List.cons_ne_nil _ _
  | single => exact List.cons_ne_nil _ _

end Lexeme

/-! ## One call -/

/-- The bytes from `start` on and up to `stop` are in the input, so that
`substr(start, stop - start)` throws nothing and takes these. -/
def SubstrInRange (input : Str) (start stop : ℕ) : Prop := start ≤ stop ∧ stop ≤ input.length

namespace Lexer

/-- What a call of `nextToken` does that returns `token` and takes the lexer `l` to `l'`. -/
structure Spans (l l' : Lexer) (token : Token) : Prop where
  input : l'.input = l.input
  inRange : l'.pos ≤ l.input.length
  /-- `END` is returned exactly when only whitespace is left, which is passed. -/
  end_iff : token.type = .END ↔ ∀ c ∈ l.rest, isSpace c = true
  passed : token.type = .END → l.pos ≤ l'.pos ∧ l'.pos = l.input.length
  /-- Any other call passes a run of whitespace and a lexeme. -/
  lexeme : token.type ≠ .END → ∃ space lexeme, l.rest = space ++ lexeme ++ l'.rest ∧
    l'.pos = l.pos + space.length + lexeme.length ∧ (∀ c ∈ space, isSpace c = true) ∧
      Lexeme token lexeme l'.rest ∧
      (token.type = .Number ∨ token.type = .Word →
        SubstrInRange l.input (l.pos + space.length) l'.pos) ∧
      (token.type = .Literal → SubstrInRange l.input (l.pos + space.length + 1) (l'.pos - 1))
  advances : token.type ≠ .END → l.pos < l'.pos

variable {l : Lexer}

/-- The lexer ends when only spaces are left. -/
theorem lexOne_end_iff (s : Str) : (lexOne s).1.type = .END ↔ ∀ c ∈ s, isSpace c = true := by
  rw [← List.dropWhile_eq_nil_iff]
  unfold lexOne
  rcases hs : s.dropWhile isSpace with _ | ⟨c, s'⟩
  · simp [endToken]
  · simp [lexFrom_type]

/-- **One call.** -/
theorem next_spans (h : l.InRange) : ∃ token l', l.next = .ok (token, l') ∧ Spans l l' token := by
  obtain ⟨n, hn, hrest, hnext⟩ := next_eq h
  have hin : (l.advance n).pos ≤ l.input.length := h.advance hn
  have hlen := l.length_rest
  have hrest' : (l.advance n).rest = (lexOne l.rest).2 := by rw [rest_advance, hrest]
  -- the whitespace and the lexeme
  have hsplit : (lexOne l.rest).1.type ≠ .END → ∃ space lexeme, l.rest = space ++ lexeme ++
      (l.advance n).rest ∧
      (∀ c ∈ space, isSpace c = true) ∧ Lexeme (lexOne l.rest).1 lexeme (l.advance n).rest := by
    intro hne
    rw [hrest']
    unfold lexOne at hne ⊢
    rcases hs : l.rest.dropWhile isSpace with _ | ⟨c, s'⟩
    · rw [hs] at hne
      exact absurd rfl hne
    · obtain ⟨lexeme, hlex, hl⟩ := Lexeme.of_lexFrom c s'
      refine ⟨l.rest.takeWhile isSpace, lexeme, ?_, fun _ => List.mem_takeWhile_imp, hl⟩
      rw [List.append_assoc, ← hlex, ← hs, List.takeWhile_append_dropWhile]
  have hpos : ∀ {space lexeme : Str}, l.rest = space ++ lexeme ++ (l.advance n).rest →
      n = space.length + lexeme.length := by
    intro space lexeme heq
    have hlength := congrArg List.length heq
    rw [List.length_append, List.length_append, rest_advance, List.length_drop] at hlength
    omega
  refine ⟨_, _, hnext, rfl, hin, lexOne_end_iff _, fun he => ?_, fun hne => ?_, fun hne => ?_⟩
  · refine ⟨Nat.le_add_right _ _, ?_⟩
    have hnil : l.rest.drop n = [] := by rw [hrest, lexOne_end he]
    rw [List.drop_eq_nil_iff, hlen] at hnil
    unfold InRange at h
    simp only [Lexer.advance] at hin ⊢
    omega
  · obtain ⟨space, lexeme, heq, hspace, hl⟩ := hsplit hne
    have hn' := hpos heq
    refine ⟨space, lexeme, heq, ?_, hspace, hl, fun _ => ⟨?_, hin⟩, fun hlit => ?_⟩
    · simp only [Lexer.advance]
      omega
    · simp only [Lexer.advance]
      omega
    · have h2 : 2 ≤ lexeme.length := by
        generalize (lexOne l.rest).1 = token at hl hlit
        generalize (l.advance n).rest = after at hl
        cases hl with
        | literal _ => simp
        | single => exact absurd hlit (by unfold singleToken; split_ifs <;> simp)
        | number => cases hlit
        | word => cases hlit
        | unterminated => cases hlit
      simp only [Lexer.advance] at hin ⊢
      exact ⟨by omega, by omega⟩
  · obtain ⟨space, lexeme, heq, -, hl⟩ := hsplit hne
    have hn' := hpos heq
    have hlexeme := List.length_pos_of_ne_nil hl.ne_nil
    simp only [Lexer.advance]
    omega

/-! ## All calls -/

/-- The lexer after `n` calls of `nextToken`. -/
def after (l : Lexer) : ℕ → Lexer
  | 0 => l
  | n + 1 =>
    match (l.after n).next with
    | .ok (_, l') => l'
    | .error _ => l.after n

/-- The calls of `nextToken` divide the input into spans. -/
structure Partition (input : Str) : Prop where
  start : (after ⟨input, 0⟩ 0).pos = 0
  /-- Each call starts where the one before it ended. -/
  spans : ∀ n, ∃ token, (after ⟨input, 0⟩ n).next = .ok (token, after ⟨input, 0⟩ (n + 1)) ∧
    Spans (after ⟨input, 0⟩ n) (after ⟨input, 0⟩ (n + 1)) token
  /-- The spans end at the end of the input, where `END` is returned. -/
  ends : ∃ n ≤ input.length, ∃ token, (after ⟨input, 0⟩ n).next =
    .ok (token, after ⟨input, 0⟩ (n + 1)) ∧
    token.type = .END ∧ (after ⟨input, 0⟩ (n + 1)).pos = input.length
  /-- From the first `END` on, nothing changes. -/
  stays : ∀ n token, (after ⟨input, 0⟩ n).next = .ok (token, after ⟨input, 0⟩ (n + 1)) →
    token.type = .END →
    ∀ m, n < m → (after ⟨input, 0⟩ m).next = .ok (⟨.END, []⟩, after ⟨input, 0⟩ m) ∧
      (after ⟨input, 0⟩ m).pos = input.length

/-- Each call of the lexer takes one span of the input. By induction on the calls. -/
theorem after_spans (h : l.InRange) (n : ℕ) : (l.after n).input = l.input ∧ (l.after n).InRange ∧
    ∃ token, (l.after n).next = .ok (token, l.after (n + 1)) ∧
      Spans (l.after n) (l.after (n + 1)) token := by
  induction n with
  | zero =>
    obtain ⟨token, l', hnext, hspans⟩ := next_spans h
    have hafter : l.after 1 = l' := by
      unfold after
      rw [show l.after 0 = l from rfl, hnext]
    refine ⟨rfl, h, token, ?_⟩
    rw [hafter]
    exact ⟨hnext, hspans⟩
  | succ n ih =>
    obtain ⟨hinput, -, token, -, hspans⟩ := ih
    have hin : (l.after (n + 1)).InRange := by
      unfold InRange
      rw [hspans.input]
      exact hspans.inRange
    obtain ⟨token', l', hnext, hspans'⟩ := next_spans hin
    have hafter : l.after (n + 2) = l' := by
      rw [after, hnext]
    refine ⟨hspans.input.trans hinput, hin, token', ?_⟩
    rw [hafter]
    exact ⟨hnext, hspans'⟩

/-- At the end of the input, a call changes nothing. -/
theorem next_end (h : l.pos = l.input.length) : l.next = .ok (⟨.END, []⟩, l) := by
  have hin : l.InRange := h.le
  have hrest : l.rest = [] := List.drop_eq_nil_of_le h.ge
  obtain ⟨n, hn, -, hnext⟩ := next_eq hin
  rw [hrest, List.length_nil, Nat.le_zero] at hn
  rw [hnext, hrest, hn]
  rfl

/-- **The lexer partitions every input.** -/
theorem partition (input : Str) : Partition input := by
  have h0 : InRange ⟨input, 0⟩ := Nat.zero_le _
  have hall := after_spans h0
  have hinput : ∀ n, (after ⟨input, 0⟩ n).input = input := fun n => (hall n).1
  refine ⟨rfl, fun n => (hall n).2.2, ?_, fun n token hnext hend m hm => ?_⟩
  · by_contra hnone
    push Not at hnone
    -- without `END`, every call advances
    have hadv : ∀ n ≤ input.length + 1, n ≤ (after ⟨input, 0⟩ n).pos := by
      intro n
      induction n with
      | zero => exact fun _ => Nat.zero_le _
      | succ n ih =>
        intro hn
        obtain ⟨-, -, token, hnext, hspans⟩ := hall n
        have hne : token.type ≠ .END := fun he =>
          hnone n (by omega) token hnext he
            ((hspans.passed he).2.trans (congrArg List.length (hinput n)))
        exact (ih (by omega)).trans_lt (hspans.advances hne)
    have hlast := hadv (input.length + 1) le_rfl
    have hrange : (after ⟨input, 0⟩ (input.length + 1)).pos ≤
        (after ⟨input, 0⟩ (input.length + 1)).input.length :=
      (hall _).2.1
    rw [hinput] at hrange
    omega
  · obtain ⟨-, -, token', hnext', hspans⟩ := hall n
    rw [hnext'] at hnext
    have htoken : token' = token := by
      injection hnext with hpair
      exact congrArg Prod.fst hpair
    have hpos : (after ⟨input, 0⟩ (n + 1)).pos = input.length := by
      rw [(hspans.passed (by rw [htoken]; exact hend)).2, hinput]
    have hstay : ∀ k, (after ⟨input, 0⟩ (n + 1 + k)).pos = input.length := by
      intro k
      induction k with
      | zero => exact hpos
      | succ k ih =>
        have hnext := next_end (ih.trans (congrArg List.length (hinput _)).symm)
        have hafter : after ⟨input, 0⟩ (n + 1 + k + 1) = after ⟨input, 0⟩ (n + 1 + k) := by
          rw [after, hnext]
        rw [← Nat.add_assoc, hafter, ih]
    obtain ⟨k, rfl⟩ := Nat.exists_eq_add_of_le (Nat.succ_le_of_lt hm)
    exact ⟨next_end ((hstay k).trans (congrArg List.length (hinput _)).symm), hstay k⟩

end Lexer

end ToySQL
