import ToySQL.Proof.Asking

/-!
# The parser ends, and never reads past the end

* `Parser.terminates`: on every input the constructor and `serialize` return, they call the
  lexer for the tokens up to the first `END` at most, and every iteration of a loop that is
  followed by another one has consumed two tokens or more.
-/

namespace ToySQL

open Program

/-! ## The log -/

namespace Lexer

/-- The `i`-th call returns the `i`-th token, or `END`. -/
theorem calls_getD {l : Lexer} (n : ℕ) (h : l.InRange) :
    l.calls n = (List.range n).map fun i => (tokensOf l.rest).getD i endToken := by
  rw [calls_eq n h]
  apply List.ext_getElem
  · simp
  · intro i h1 h2
    have hi : i < n := by simpa using h2
    rw [List.getElem_take, List.getElem_map, List.getElem_range]
    by_cases hlt : i < (tokensOf l.rest).length
    · rw [List.getElem_append_left hlt, List.getD_eq_getElem _ _ hlt]
    · rw [List.getElem_append_right (not_lt.1 hlt), List.getElem_replicate,
        List.getD_eq_default _ _ (not_lt.1 hlt)]

end Lexer

namespace Parser

/-- The log holds what the first calls on the input return, and the lexer stands behind them. -/
structure Logged (input : Str) (s : Lexer × List Token) : Prop where
  inRange : s.1.InRange
  rest : tokensOf s.1.rest = (tokensOf input).drop s.2.length
  log : s.2 = (List.range s.2.length).map fun i => (tokensOf input).getD i endToken

variable {input : Str} {s : Lexer × List Token}

/-- Before the first call nothing is logged. -/
theorem logged_init (input : Str) : Logged input (⟨input, 0⟩, []) := ⟨Nat.zero_le _, rfl, rfl⟩

theorem Logged.step (h : Logged input s) (o : ParseOp) : Logged input (logging o s).2 := by
  cases o with
  | ctype o => exact h
  | nextToken =>
    obtain ⟨l, log⟩ := s
    obtain ⟨l', hnext, hin, htail⟩ := Lexer.tokensOf_next h.inRange
    have hrest : tokensOf l.rest = (tokensOf input).drop log.length := h.rest
    have hlog : log = (List.range log.length).map fun i => (tokensOf input).getD i endToken := h.log
    simp only [logging, hnext]
    refine ⟨hin, ?_, ?_⟩
    · rw [htail, hrest, List.tail_drop, List.length_append, List.length_singleton]
    · rw [List.length_append, List.length_singleton, List.range_succ, List.map_append, ← hlog,
        List.map_singleton, hrest,
        List.headD_eq_head?_getD, List.head?_drop, List.getD_eq_getElem?_getD]

/-- Without `END` among them, the calls are no more than the tokens. -/
theorem Logged.length_le (h : Logged input s) (hopen : ∀ token ∈ s.2, token.type ≠ .END) :
    s.2.length ≤ (tokensOf input).length := by
  by_contra hlt
  push Not at hlt
  have hend : endToken ∈ s.2 := by
    rw [h.log]
    refine List.mem_map.2 ⟨(tokensOf input).length, List.mem_range.2 hlt, ?_⟩
    exact List.getD_eq_default _ _ le_rfl
  exact hopen endToken hend rfl

/-- What a run keeps that asks for no token after the end. -/
theorem asking_logged (n : ℕ) (input : Str) :
    Logged input ((serialize n).run Asking.handler (⟨input, 0⟩, [])).2 ∧
      ((serialize n).run Asking.handler (⟨input, 0⟩, [])).2.2.length ≤
        (tokensOf input).length + 1 := by
  refine run_invariant (C := fun s => Logged input s ∧
    s.2.length ≤ (tokensOf input).length + 1) ?_ _ _
    ⟨logged_init input, Nat.zero_le _⟩
  rintro o s ⟨hlogged, hlen⟩
  by_cases hasked : Asked o s
  · simp only [Program.guard, if_pos hasked]
    refine ⟨hlogged.step o, ?_⟩
    cases o with
    | ctype o => exact hlen
    | nextToken =>
      have hle := hlogged.length_le hasked
      obtain ⟨l, log⟩ := s
      simp only [logging]
      rcases l.next with e | ⟨token, l'⟩
      · exact hlen
      · rw [List.length_append, List.length_singleton]
        exact Nat.succ_le_succ hle
  · simp only [Program.guard, if_neg hasked]
    exact ⟨hlogged, hlen⟩

/-! ## The rounds -/

/-- `loop` repeats `round`, and a round that is followed by another one has consumed two tokens
or more, none of which is `END`. -/
structure Consumes {β : Type} (input : Str) (round : Fields → Parse (Fields ⊕ β))
    (loop : ℕ → Fields → Parse β) : Prop where
  repeats : ∀ rounds obj, loop (rounds + 1) obj = round obj >>= Sum.elim (loop rounds) pure
  tokens : ∀ l obj, l.input = input → l.InRange → ∀ obj' l', (round obj).run handler l =
    (.ok (.inl obj'), l') →
    ∃ read, 2 ≤ read.length ∧ l.tokens = read ++ l'.tokens

/-- `k` tokens or more were taken off the list. -/
def Taken (k : ℕ) (ts ts' : List Token) : Prop := ∃ read, k ≤ read.length ∧ ts = read ++ ts'

variable {k : ℕ} {ts ts' : List Token}

theorem Taken.refl (ts : List Token) : Taken 0 ts ts := ⟨[], le_rfl, rfl⟩

theorem Taken.mono {j : ℕ} (h : Taken k ts ts') (hj : j ≤ k) : Taken j ts ts' := by
  obtain ⟨read, hlen, hts⟩ := h
  exact ⟨read, hj.trans hlen, hts⟩

/-- Any token but `END` is one of the list. -/
theorem Taken.next (h : Taken k ts ts') {type : ToySQLTokenType}
    (htype : (ts'.headD endToken).type = type)
    (hne : type ≠ .END) : Taken (k + 1) ts ts'.tail := by
  obtain ⟨read, hlen, hts⟩ := h
  rcases ts' with _ | ⟨t, ts'⟩
  · exact absurd htype.symm hne
  · refine ⟨read ++ [t], ?_, ?_⟩
    · rw [List.length_append, List.length_singleton]
      exact Nat.succ_le_succ hlen
    · rw [hts, List.append_assoc, List.singleton_append, List.tail_cons]

/-- A token that is a value is not the end, so one more is taken. -/
theorem Taken.next_value (h : Taken k ts ts') (hvalue : (ts'.headD endToken).isValue = true) :
    Taken (k + 1) ts ts'.tail := by
  rcases isValue_iff.1 hvalue with htype | htype
  · exact h.next htype (by decide)
  · exact h.next htype (by decide)

variable {β : Type}

/-- What a round has taken that is followed by another one. -/
def TwoTaken (ts : List Token) (r : Fields ⊕ β) (ts' : List Token) : Prop :=
  r.isLeft = true → Taken 2 ts ts'

/-- A loop whose rounds take two tokens each ends by itself. -/
theorem Consumes.of_list {round : Fields → Parse (Fields ⊕ β)} {loop : ℕ → Fields → Parse β}
    (hrepeats : ∀ rounds obj, loop (rounds + 1) obj = round obj >>= Sum.elim (loop rounds) pure)
    (htaken : ∀ obj ts, wp listHandler (round obj) (TwoTaken ts) (faults fun _ => True) ts) :
    Consumes input round loop := by
  refine ⟨hrepeats, fun l obj _ hl obj' l' hrun => ?_⟩
  obtain ⟨hvalue, hrest⟩ := run_listHandler (round obj) hl
  have hl' := run_inRange (round obj) hl
  rw [hrun] at hvalue hrest hl'
  rw [Lexer.tokens_eq hl, Lexer.tokens_eq hl']
  exact wp_ok (htaken obj (tokensOf l.rest)) (Prod.ext hvalue.symm hrest.symm) rfl

theorem consumes_create (input : Str) : Consumes input createRound createLoop := by
  refine .of_list (fun rounds obj => ?_) fun obj ts => ?_
  · unfold createLoop createRound
    simp only [bind_assoc, ite_bind, bind_fail, pure_eq, bind_ret, Sum.elim_inl, Sum.elim_inr]
  · have htaken : ∀ {type}, (ts.headD endToken).type = .Word →
        (ts.tail.headD endToken).type = .Word →
        (ts.tail.tail.headD endToken).type = type → type ≠ .END → Taken 2 ts ts.tail.tail.tail :=
      fun hname htype hcomma hne =>
        ((((Taken.refl ts).next hname (by decide)).next htype (by decide)).next hcomma hne).mono
          (by decide)
    unfold createRound
    simp only [wp_bind, wp_nextToken, wp_require, wp_columnType, wp_ite, wp_fail, faults_apply,
      decide_eq_true_eq]
    split_ifs with hname htype hint hclose hcomma htext hclose hcomma
    · intro hleft
      cases hleft
    · exact fun _ => htaken hname htype hcomma (by decide)
    · intro hleft
      cases hleft
    · exact fun _ => htaken hname htype hcomma (by decide)

theorem consumes_insert (input : Str) : Consumes input insertRound insertLoop := by
  refine .of_list (fun rounds obj => ?_) fun obj ts => ?_
  · unfold insertLoop insertRound
    simp only [bind_assoc, ite_bind, bind_fail, pure_eq, bind_ret, Sum.elim_inl, Sum.elim_inr]
  · unfold insertRound
    simp only [wp_bind, wp_nextToken, wp_require, wp_ite, wp_fail, faults_apply]
    split_ifs with hvalue hclose hcomma
    · intro hleft
      cases hleft
    · exact fun _ => ((Taken.refl ts).next_value hvalue).next hcomma (by decide)

theorem consumes_pairs (input field : Str) :
    Consumes input (pairsRound field) (pairsLoop field) := by
  refine .of_list (fun rounds obj => ?_) fun obj ts => ?_
  · unfold pairsLoop pairsRound
    simp only [bind_assoc, ite_bind, pure_eq, bind_ret, Sum.elim_inl, Sum.elim_inr]
  · unfold pairsRound
    simp only [wp_bind, wp_nextToken, wp_require, wp_ite, decide_eq_true_eq]
    split_ifs with hkey hequal hvalue hcomma
    · have htaken :=
        (((Taken.refl ts).next hkey (by decide)).next hequal (by decide)).next_value hvalue
      exact fun _ => (htaken.next hcomma (by decide)).mono (by decide)
    · intro hleft
      cases hleft

theorem consumes_select (input : Str) : Consumes input selectRound selectLoop := by
  refine .of_list (fun rounds obj => ?_) fun obj ts => ?_
  · unfold selectLoop selectRound
    simp only [bind_assoc, ite_bind, pure_eq, bind_ret, Sum.elim_inl, Sum.elim_inr]
  · unfold selectRound
    simp only [wp_bind, wp_nextToken, wp_require, wp_ite, decide_eq_true_eq]
    split_ifs with hother hcolumn
    · intro hleft
      cases hleft
    · exact fun _ => ((Taken.refl ts).next (not_not.1 hother) (by decide)).next hcolumn (by decide)

/-! ## Every input -/

/-- The constructor of the parser and `serialize` on an input. -/
structure Terminates (input : Str) : Prop where
  /-- They return, whatever larger bound on the rounds of the loops is taken. -/
  returns : ∀ rounds, input.length < rounds →
    ∃ json, result ((serialize rounds).run handler ⟨input, 0⟩).1 = .ok json
  beforeEnd : ∀ rounds, Always logging BeforeEnd (serialize rounds) (⟨input, 0⟩, [])
  /-- The calls return the tokens of the input, and `END` once at most. -/
  calls : ∀ rounds log, ((serialize rounds).run logging (⟨input, 0⟩, [])).2.2 = log →
    log = Lexer.calls log.length ⟨input, 0⟩ ∧ log.length ≤ (Lexer.tokens ⟨input, 0⟩).length + 1
  create : Consumes input createRound createLoop
  insert : Consumes input insertRound insertLoop
  select : Consumes input selectRound selectLoop
  /-- The loop after `SET` of `Update`, and the loops after `WHERE` of three statements. -/
  set : Consumes input (pairsRound (str "values")) (pairsLoop (str "values"))
  where_ : Consumes input (pairsRound (str "where")) (pairsLoop (str "where"))

/-- **The parser terminates**, and no token is asked for after the end. -/
theorem terminates (input : Str) : Terminates input := by
  have h0 : Lexer.InRange ⟨input, 0⟩ := Nat.zero_le _
  refine ⟨fun rounds hrounds => ⟨_, serialize_read hrounds⟩, fun rounds => ?_,
    fun rounds log hlog => ?_,
    consumes_create input, consumes_insert input, consumes_select input, consumes_pairs input _,
    consumes_pairs input _⟩
  · refine Always.mono (J := fun _ => True) (fun _ _ _ => trivial) (fun o s _ hasked => ?_) trivial
      (serialize_asked rounds input).1
    cases o with
    | nextToken => exact hasked
    | ctype o => trivial
  · obtain ⟨hlogged, hlen⟩ := asking_logged rounds input
    rw [← (serialize_asked rounds input).2] at hlogged hlen
    rw [← hlog]
    refine ⟨?_, ?_⟩
    · rw [Lexer.calls_getD _ h0]
      exact hlogged.log
    · rw [Lexer.tokens_eq h0]
      exact hlen

end Parser

end ToySQL
