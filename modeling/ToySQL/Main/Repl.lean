import ToySQL.Proof.Parsing
import ToySQL.Spec.Repl

/-!
# The client and the statements typed

* `deliversOnce_iff`: the client hands over the statements once each exactly if none of
  them has a `;` and the exchange of the last one, and of no other, does not return.
-/

namespace ToySQL

variable {exchange : List Str → Bool} {c : Client} {statement : Str}
  {statements done rest : List Str}

/-! ## Statements -/

namespace Accepted

theorem parse_ok (h : Accepted statement) : (Parser.parse statement).isOk = true := by
  obtain ⟨value, hp, -⟩ := h
  rw [hp]
  rfl

theorem ne_nil (h : Accepted statement) : statement ≠ [] := by
  rintro rfl
  obtain ⟨value, hp, hne⟩ := h
  have hnil : Parser.parse [] = .ok .object := rfl
  exact hne (Except.ok.inj (hp.symm.trans hnil))

theorem ne_exit (h : Accepted statement) : str "exit" ≠ statement := by
  rintro rfl
  obtain ⟨value, hp, hne⟩ := h
  have hexit : Parser.parse (str "exit") = .ok .object := rfl
  exact hne (Except.ok.inj (hp.symm.trans hexit))

end Accepted

/-- A statement that can be typed as a whole. -/
structure Plain (statement : Str) : Prop where
  accepted : Accepted statement
  newline : statement.head? ≠ some newline
  semicolon : semicolon ∉ statement

/-! ## Rounds -/

/-- `getline` reads up to the delimiter and takes it away. -/
theorem getline_delim {line rest line₀ : Str} {delim : UInt8} (h : delim ∉ line) :
    Stdin.getline { rest := line ++ delim :: rest } line₀ delim = (line, { rest }) := by
  have hgood : Stdin.good { rest := line ++ delim :: rest } = true := rfl
  simp only [Stdin.getline, hgood, if_true, takeWhile_delim h, List.drop_left]

theorem peek_cons {c : UInt8} {s : Str} : Stdin.peek { rest := c :: s } =
    (some c, { rest := c :: s }) := rfl

/-- `read_input` reads one statement typed, and leaves the others. -/
theorem readInput_statement (h : Plain statement) (line : Str) (rest : List Str) :
    readInput line { rest := typed (statement :: rest) } = (statement, { rest := typed rest }) := by
  have htyped : typed (statement :: rest) = statement ++ semicolon :: newline :: typed rest := by
    simp [typed]
  have hpeek : Stdin.peek { rest := typed (statement :: rest) } =
      (statement.head?, { rest := typed (statement :: rest) }) := by
    rw [htyped]
    obtain ⟨c, s, rfl⟩ := List.exists_cons_of_ne_nil h.accepted.ne_nil
    exact peek_cons
  have hline : Stdin.getline { rest := newline :: typed rest } [] newline =
    ([], { rest := typed rest }) :=
    getline_delim (List.not_mem_nil : newline ∉ ([] : Str))
  rw [readInput, hpeek]
  simp only [if_neg h.newline]
  rw [htyped, getline_delim h.semicolon]
  simp only [hline]

/-- At the end of the input the buffer keeps the text that it had. -/
theorem readInput_end {l : Str} {s : Stdin} (h : s.rest = []) :
    (readInput l s).1 = l ∧ (readInput l s).2.rest = [] := by
  obtain ⟨rest, eof, fail⟩ := s
  obtain rfl : rest = [] := h
  cases eof <;> cases fail <;> exact ⟨rfl, rfl⟩

/-- `getline` gives what was there before, or the part up to the delimiter. -/
theorem getline_fst (s : Stdin) (line : Str) (delim : UInt8) :
    (s.getline line delim).1 = line ∨ (s.getline line delim).1 = s.rest.takeWhile fun c =>
      c ≠ delim := by
  unfold Stdin.getline
  by_cases hgood : s.good = true
  · simp only [hgood, if_true]
    split <;> exact Or.inr rfl
  · rw [if_neg hgood]
    exact Or.inl rfl

theorem peek_some {s s' : Stdin} {c : UInt8} (h : s.peek = (some c, s')) :
    s' = s ∧ s.rest.head? = some c := by
  unfold Stdin.peek at h
  split at h
  · split at h
    case h_1 => cases h
    case h_2 hrest =>
      cases h
      exact ⟨rfl, by rw [hrest]; rfl⟩
  · cases h

/-- A text read has no `;`: it ends before one, or it is the empty line. -/
theorem semicolon_readInput {line : Str} {s : Stdin} (h : semicolon ∉ line) :
    semicolon ∉ (readInput line s).1 := by
  rcases hp : s.peek with ⟨ch, s'⟩
  simp only [readInput, hp]
  by_cases hch : ch = some newline
  · obtain ⟨rfl, hhead⟩ := peek_some (hch ▸ hp)
    rw [if_pos hch]
    rcases getline_fst s' line newline with hl | hl
    · rwa [hl]
    · obtain ⟨rest, hrest⟩ := List.head?_eq_some_iff.1 hhead
      rw [hl, hrest]
      simp
  · rw [if_neg hch]
    rcases getline_fst s' line semicolon with hl | hl
    · simpa [hl] using h
    · simpa [hl] using delim_takeWhile s'.rest semicolon

namespace Client

/-- A client that stopped does nothing more. -/
theorem round_stopped (h : c.running = false) : c.round exchange = c := by
  rw [round, h]
  rfl

/-- A round leaves the client as it is, or reads a line and hands it over or not. -/
theorem round_cases (exchange : List Str → Bool) (c : Client) :
    c.round exchange = c ∨
      (c.round exchange).stdin = (readInput c.inputBuffer c.stdin).2 ∧
        (c.round exchange).inputBuffer = (readInput c.inputBuffer c.stdin).1 ∧
        ((c.round exchange).handed = c.handed ∨ (readInput c.inputBuffer c.stdin).1 ≠ [] ∧
          (c.round exchange).handed = c.handed ++ [(readInput c.inputBuffer c.stdin).1]) := by
  by_cases hrun : c.running = true
  · rcases hread : readInput c.inputBuffer c.stdin with ⟨line, stdin⟩
    simp only [round, hrun, hread, if_true]
    by_cases hexit : str "exit" = line
    · rw [if_pos hexit]
      exact Or.inr ⟨rfl, rfl, Or.inl rfl⟩
    rw [if_neg hexit]
    rcases line with _ | ⟨b, line⟩
    · exact Or.inr ⟨rfl, rfl, Or.inl rfl⟩
    · exact Or.inr ⟨rfl, rfl, Or.inr ⟨by simp, rfl⟩⟩
  · exact Or.inl (round_stopped (Bool.eq_false_of_not_eq_true hrun))

/-- No text handed over, and none in the buffer, has a `;`. -/
def NoSemicolon (c : Client) : Prop := semicolon ∉ c.inputBuffer ∧ ∀ s ∈ c.handed, semicolon ∉ s

theorem NoSemicolon.round (h : c.NoSemicolon) : (c.round exchange).NoSemicolon := by
  have hread := semicolon_readInput (s := c.stdin) h.1
  obtain heq | ⟨-, hbuffer, hhanded⟩ := round_cases exchange c
  · rwa [heq]
  constructor
  · rwa [hbuffer]
  · intro s hs
    rcases hhanded with hh | ⟨-, hh⟩
    · exact h.2 s (hh ▸ hs)
    · rcases List.mem_append.1 (hh ▸ hs) with hs | hs
      · exact h.2 s hs
      · rwa [List.mem_singleton.1 hs]

theorem NoSemicolon.rounds (h : c.NoSemicolon) (n : ℕ) :
    ((Client.round exchange)^[n] c).NoSemicolon := by
  induction n with
  | zero => exact h
  | succ n ih =>
    rw [Function.iterate_succ_apply']
    exact ih.round

/-- The texts handed over stay. -/
theorem handed_round (c : Client) : c.handed <+: (c.round exchange).handed := by
  obtain heq | ⟨-, -, hh | ⟨-, hh⟩⟩ := round_cases exchange c
  · rw [heq]
  · rw [hh]
  · rw [hh]
    exact List.prefix_append _ _

/-- What was handed on stays handed on. -/
theorem handed_rounds (c : Client) (n : ℕ) : c.handed <+: ((round exchange)^[n] c).handed := by
  induction n with
  | zero => exact List.prefix_rfl
  | succ n ih =>
    rw [Function.iterate_succ_apply']
    exact ih.trans (handed_round _)

/-! ## The client after some statements -/

/-- The client after the statements `done`, with `rest` to come. -/
def after (exchange : List Str → Bool) (done rest : List Str) : Client where
  stdin := { rest := typed rest }
  inputBuffer := done.getLast?.getD []
  handed := done
  running := done.isEmpty || exchange done

theorem round_handed {line : Str} {stdin : Stdin} (hc : c.running = true)
    (hread : readInput c.inputBuffer c.stdin = (line, stdin)) (hl : Accepted line) :
    c.round exchange =
      { stdin, inputBuffer := line, handed := c.handed ++
        [line], running := exchange (c.handed ++ [line]) } := by
  have hne : line.isEmpty = false := by simpa using hl.ne_nil
  simp only [round, hc, hread, hne, hl.parse_ok, if_true, if_neg hl.ne_exit, Bool.true_and,
    Bool.false_eq_true, if_false]

/-- One round takes the next statement typed. -/
theorem round_after (hs : Plain statement)
    (hrun : (after exchange done (statement :: rest)).running = true) :
    (after exchange done (statement :: rest)).round exchange =
      after exchange (done ++ [statement]) rest := by
  rw [round_handed hrun (readInput_statement hs _ rest) hs.accepted]
  simp [after]

/-- **The rounds of the statements** `done`, if all exchanges but that of the last one
return. -/
theorem rounds_after (hs : ∀ s ∈ done ++ rest, Plain s)
    (hgo : ∀ d, d ≠ [] → d <+: done → d ≠ done → exchange d = true) :
    (round exchange)^[done.length] (start (done ++ rest)) = after exchange done rest := by
  induction done using List.reverseRecOn generalizing rest with
  | nil => rfl
  | append_singleton done s ih =>
    rw [List.append_assoc, List.singleton_append] at hs ⊢
    have hprev : ∀ d, d ≠ [] → d <+: done → exchange d = true := by
      intro d hd hpre
      refine hgo d hd (hpre.trans (List.prefix_append done [s])) ?_
      rintro rfl
      have hle := hpre.length_le
      rw [List.length_append, List.length_singleton] at hle
      omega
    have hrun : (after exchange done (s :: rest)).running = true := by
      rcases done with _ | ⟨s₀, done⟩
      · rfl
      · simp [after, hprev (s₀ :: done) (by simp) List.prefix_rfl]
    rw [List.length_append, List.length_singleton, Function.iterate_succ_apply',
      ih hs fun d hd hpre _ => hprev d hd hpre]
    exact round_after (hs s (by simp)) hrun

/-- At the end of the input the last statement is handed over again. -/
theorem round_end (hs : Accepted statement) (hrun : exchange (done ++ [statement]) = true) :
    ((after exchange (done ++ [statement]) []).round exchange).handed =
      done ++ [statement] ++ [statement] := by
  have hbuffer : (after exchange (done ++ [statement]) []).inputBuffer = statement := by
    simp [after]
  have hread : readInput statement (after exchange (done ++ [statement]) []).stdin =
      (statement, (readInput statement (after exchange (done ++ [statement]) []).stdin).2) :=
    Prod.ext (readInput_end rfl).1 rfl
  rw [round_handed (by simp [after, hrun]) (by rw [hbuffer]; exact hread) hs]
  rfl

/-- Without a statement, no text is ever handed over. -/
theorem rounds_nil (n : ℕ) : ((round exchange)^[n] (start [])).handed = [] := by
  have h : ((round exchange)^[n] (start [])).handed = [] ∧
      ((round exchange)^[n] (start [])).inputBuffer = [] ∧
      ((round exchange)^[n] (start [])).stdin.rest = [] := by
    induction n with
    | zero => exact ⟨rfl, rfl, rfl⟩
    | succ n ih =>
      rw [Function.iterate_succ_apply']
      generalize (round exchange)^[n] (start []) = c at ih
      obtain ⟨hh, hb, hr⟩ := ih
      obtain ⟨hline, hrest⟩ := readInput_end (l := c.inputBuffer) hr
      obtain heq | ⟨hstdin, hbuffer, hhanded⟩ := round_cases exchange c
      · rw [heq]
        exact ⟨hh, hb, hr⟩
      · refine ⟨?_, by rw [hbuffer, hline, hb], by rw [hstdin, hrest]⟩
        rcases hhanded with hhanded | ⟨hne, -⟩
        · rw [hhanded, hh]
        · exact absurd (hline.trans hb) hne
  exact h.1

end Client

/-! ## The statements handed over -/

/-- No statement delivered has a semicolon in it. -/
theorem DeliversOnce.semicolon (h : DeliversOnce exchange statements) :
    ∀ s ∈ statements, semicolon ∉ s := by
  obtain ⟨n, hn⟩ := h
  have hno : (Client.start statements).NoSemicolon :=
    ⟨List.not_mem_nil, fun s hs => absurd hs List.not_mem_nil⟩
  have hall := (hno.rounds n : ((Client.round exchange)^[n] _).NoSemicolon).2
  rwa [hn n le_rfl] at hall

theorem Client.rounds_stopped (h : c.running = false) (n : ℕ) : (Client.round exchange)^[n] c = c :=
  Function.iterate_fixed (Client.round_stopped h) n

/-- Each exchange before the last statement returns, and that of the last one does not. -/
theorem DeliversOnce.returns (hs : ∀ s ∈ statements, Plain s) (h : DeliversOnce exchange statements)
    (hne : done ≠ []) (hpre : done <+: statements) : exchange done = true ↔ done ≠ statements := by
  -- by strong induction on the statements handed over so far
  induction hlen : done.length using Nat.strongRecOn generalizing done with
  | ind k ih =>
    obtain ⟨rest, rfl⟩ := hpre
    obtain ⟨n, hn⟩ := h
    have hrounds : (Client.round exchange)^[done.length] (.start (done ++ rest)) =
        .after exchange done rest := by
      refine Client.rounds_after hs fun d hd hpre hdne => ?_
      have hlt : d.length < done.length := by
        refine lt_of_le_of_ne hpre.length_le fun heq => hdne (hpre.eq_of_length heq)
      refine (ih d.length (hlen ▸ hlt) hd (hpre.trans (List.prefix_append _ _)) rfl).2 ?_
      rintro rfl
      rw [List.length_append] at hlt
      omega
    rcases rest with _ | ⟨s, rest⟩
    · -- the last statement: another round would hand it over again
      simp only [List.append_nil, ne_eq, not_true_eq_false, iff_false, Bool.not_eq_true]
        at hn hrounds ⊢
      by_contra hgo
      rw [Bool.not_eq_false] at hgo
      obtain ⟨init, last, rfl⟩ := (List.eq_nil_or_concat done).resolve_left hne
      rw [List.concat_eq_append] at hs hn hrounds hgo
      have hlast := Client.round_end (hs last (by simp)).accepted hgo
      have hpre : _ <+: ((Client.round exchange)^[n] _).handed := Client.handed_rounds
        ((Client.after exchange (init ++ [last]) []).round exchange) n
      rw [hlast, ← Function.iterate_succ_apply (Client.round exchange) n, ← hrounds,
        ← Function.iterate_add_apply, hn _ (by omega)] at hpre
      have hle := hpre.length_le
      simp only [List.length_append, List.length_singleton] at hle
      omega
    · -- another statement: the client may not stop here
      have hmore : done ≠ done ++ s :: rest := by simp
      simp only [ne_eq, hmore, not_false_eq_true, iff_true]
      by_contra hstop
      rw [Bool.not_eq_true] at hstop
      have hrun : (Client.after exchange done (s :: rest)).running = false := by
        simp [Client.after, hne, hstop]
      have hend := hn (n + done.length) (by omega)
      rw [Function.iterate_add_apply, hrounds, Client.rounds_stopped hrun] at hend
      exact hmore hend

/-- Plain statements are delivered once as long as the server answers. -/
theorem deliversOnce_of_exchange (hs : ∀ s ∈ statements, Plain s)
    (h : ∀ done, done ≠ [] → done <+: statements → (exchange done = true ↔ done ≠ statements)) :
    DeliversOnce exchange statements := by
  by_cases hne : statements = []
  · subst hne
    exact ⟨0, fun m _ => Client.rounds_nil m⟩
  have hrounds : (Client.round exchange)^[statements.length] (.start (statements ++ [])) =
      .after exchange statements [] :=
    Client.rounds_after (by simpa using hs) fun d hd hpre hdne => (h d hd hpre).2 hdne
  rw [List.append_nil] at hrounds
  have hexchange : exchange statements = false := by
    simpa using h statements hne List.prefix_rfl
  have hrun : (Client.after exchange statements []).running = false := by
    simp [Client.after, hne, hexchange]
  refine ⟨statements.length, fun m hm => ?_⟩
  obtain ⟨k, rfl⟩ := Nat.exists_eq_add_of_le' hm
  rw [Function.iterate_add_apply, hrounds, Client.rounds_stopped hrun]
  rfl

/-- **The client delivers each statement once** exactly if no statement has a `;` and the
exchange of the last one, and of no other, does not return. -/
theorem deliversOnce_iff (hs : ∀ s ∈ statements, Accepted s ∧ s.head? ≠ some newline) :
    DeliversOnce exchange statements ↔
      (∀ s ∈ statements, semicolon ∉ s) ∧
        ∀ done, done ≠ [] → done <+: statements → (exchange done = true ↔ done ≠ statements) := by
  constructor
  · intro h
    have hplain : ∀ s ∈ statements, Plain s := fun s hmem =>
      ⟨(hs s hmem).1, (hs s hmem).2, h.semicolon s hmem⟩
    exact ⟨h.semicolon, fun done hne hpre => h.returns hplain hne hpre⟩
  · rintro ⟨hsemi, hgo⟩
    exact deliversOnce_of_exchange (fun s hmem => ⟨(hs s hmem).1, (hs s hmem).2, hsemi s hmem⟩) hgo

/-! ## One statement -/

theorem accepted_delete : Accepted (str "DELETE FROM t") :=
  ⟨(Statement.delete (str "t") []).json, rfl, json_ne_object _⟩

/-- The exchange of the only statement does not return. -/
theorem deliversOnce_iff_delete :
    DeliversOnce (fun _ => false) [str "DELETE FROM t"] ↔
      (∀ s ∈ [str "DELETE FROM t"], semicolon ∉ s) ∧ ∀ done, done ≠ [] →
        done <+: [str "DELETE FROM t"] →
        (false = true ↔ done ≠ [str "DELETE FROM t"]) :=
  deliversOnce_iff fun s hs => by
    rw [List.mem_singleton.1 hs]
    exact ⟨accepted_delete, by decide⟩

/-- The only statement is handed over again and again at the end of the input. -/
theorem not_deliversOnce_delete :
    Accepted (str "DELETE FROM t") ∧ (str "DELETE FROM t").head? ≠ some newline ∧
      ¬ DeliversOnce (fun _ => true) [str "DELETE FROM t"] := by
  refine ⟨accepted_delete, by decide, fun h => ?_⟩
  have hplain : ∀ s ∈ [str "DELETE FROM t"], Plain s := fun s hs => by
    rw [List.mem_singleton.1 hs]
    exact ⟨accepted_delete, by decide, by decide⟩
  have hlast := h.returns hplain (by simp) List.prefix_rfl
  simp at hlast

end ToySQL
