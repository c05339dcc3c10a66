import ToySQL.Main.Spans
import ToySQL.Proof.Asking

/-!
# The domain of the character classes

The whitespace loop of `nextToken` hands a `char` to `std::isspace` as it is, and a byte
above 127 is a negative `char`. All other calls convert it first, or have a letter.

* `callsInDomain_iff`: no call leaves the domain exactly when every byte above 127 is in a
  literal.
-/

namespace ToySQL

open Program

/-- The calls of `<cctype>` are in the domain, in every state the lexer reaches on the input
and in a run of the parser. -/
structure CallsInDomain (input : Str) : Prop where
  lexer : ∀ n, (Lexer.after ⟨input, 0⟩ n).Classifies
  parser : ∀ rounds, Always Parser.handler Parser.Classifies (Parser.serialize rounds) ⟨input, 0⟩

/-- Before every byte above 127 there is an odd number of quotes. -/
def OnlyInLiterals (s : Str) : Prop := ∀ i c, s[i]? = some c → 128 ≤ c →
    Odd ((s.take i).count '"'.toUInt8)

/-! ## Calls -/

/-- A signed `char` is in the domain of the `ctype.h` functions if it is below 128. -/
theorem schar_inDomain (c : UInt8) : 0 ≤ schar c ∧ schar c ≤ 255 ↔ c < 128 := by
  revert c
  apply forall_byte
  decide +kernel

theorem isSpace_lt (c : UInt8) : isSpace c = true → c < 128 ∧ c ≠ '"'.toUInt8 := by
  revert c
  apply forall_byte
  decide +kernel

theorem isDigit_lt (c : UInt8) : isDigit c = true → c < 128 ∧ c ≠ '"'.toUInt8 := by
  revert c
  apply forall_byte
  decide +kernel

theorem isAlpha_lt (c : UInt8) : isAlpha c = true → c < 128 ∧ c ≠ '"'.toUInt8 := by
  revert c
  apply forall_byte
  decide +kernel

namespace Lexer

variable {p : UInt8 → Lex Bool} {input : Str} {l : Lexer}

/-- A loop over the input makes only the calls of its test. -/
theorem only_scanWhile {C : CtypeOp → Prop} (hp : ∀ c, Only (I := lexInterface) C (p c))
    (input : Str) :
    ∀ rounds pos, Only (I := lexInterface) C (scanWhile p input rounds pos) := by
  intro rounds
  induction rounds with
  | zero =>
    intro pos
    trivial
  | succ rounds ih =>
    intro pos
    unfold scanWhile
    rcases input[pos]? with _ | c
    · trivial
    · exact (hp c).bind fun b => Only.ite (ih _) trivial

theorem only_scan (hp : ∀ c, Only (I := lexInterface) CtypeOp.InDomain (p c)) (l : Lexer) :
    Only (I := lexInterface) CtypeOp.InDomain (l.scan p) :=
  (only_scanWhile hp l.input _ _).bind fun _ => trivial

/-- `isdigit` of an `unsigned char` is in the domain. -/
theorem only_isdigit (c : UInt8) :
    Only (I := lexInterface) CtypeOp.InDomain (lexCall (.isdigit (uchar c))) :=
  ⟨uchar_inDomain c, fun _ => trivial⟩

/-- `isalpha` of an `unsigned char` is in the domain. -/
theorem only_isalpha (c : UInt8) :
    Only (I := lexInterface) CtypeOp.InDomain (lexCall (.isalpha (uchar c))) :=
  ⟨uchar_inDomain c, fun _ => trivial⟩

theorem only_substr (s : Str) (start : ℕ) (count : ℤ) :
    Only (I := lexInterface) CtypeOp.InDomain (substr s start count) :=
  Only.ite trivial (Only.ite trivial trivial)

/-- Reading a number calls only on `unsigned char`s. -/
theorem only_number (l : Lexer) : Only (I := lexInterface) CtypeOp.InDomain l.number :=
  (only_scan only_isdigit l).bind fun _ => (only_substr _ _ _).bind fun _ => trivial

theorem only_word (l : Lexer) : Only (I := lexInterface) CtypeOp.InDomain l.word := by
  refine (only_scan only_isalpha l).bind fun l₁ => (only_scan only_isdigit l₁).bind fun l₂ => ?_
  exact (only_substr _ _ _).bind fun _ => trivial

/-- Reading a quoted text calls no function of `ctype.h`. -/
theorem only_literal (l : Lexer) : Only (I := lexInterface) CtypeOp.InDomain l.literal := by
  refine (only_scan (p := fun c => pure (c ≠ '"'.toUInt8)) (fun _ => trivial) _).bind fun l₁ => ?_
  exact Only.ite trivial ((only_substr _ _ _).bind fun _ => trivial)

/-- The loop over the whitespace sees the whitespace, and one byte more. -/
theorem always_scanWhile (input : Str) :
    ∀ rounds pos, pos ≤ input.length → input.length < pos + rounds →
    (Always cHandler (fun o _ => o.InDomain)
      (scanWhile (fun c => lexCall (.isspace (schar c))) input rounds pos) () ↔
      ∀ c ∈ ((input.drop pos).dropWhile isSpace).head?, c < 128) := by
  intro rounds
  -- spaces are below 128, so only the character that stops the scan matters
  induction rounds with
  | zero =>
    intro pos _ _
    omega
  | succ rounds ih =>
    intro pos hle hpos
    unfold scanWhile
    rcases hc : input[pos]? with _ | c
    · rw [List.drop_eq_nil_of_le (List.getElem?_eq_none_iff.1 hc)]
      exact ⟨fun _ c hmem => absurd hmem (Option.not_mem_none c), fun _ => trivial⟩
    · obtain ⟨hlt, rfl⟩ := List.getElem?_eq_some_iff.1 hc
      have hcall : ∀ {f : Bool → Lex ℕ}, Always cHandler (fun o _ => o.InDomain)
          (lexCall (.isspace (schar input[pos])) >>= f) () ↔
            input[pos] < 128 ∧
              Always cHandler (fun o _ => o.InDomain) (f (isSpace input[pos])) () :=
        and_congr (schar_inDomain _) Iff.rfl
      rw [hcall, List.drop_eq_getElem_cons hlt, List.dropWhile_cons]
      by_cases hspace : isSpace input[pos]
      · simp only [hspace, if_true]
        rw [ih (pos + 1) (by omega) (by omega)]
        exact and_iff_right (isSpace_lt _ hspace).1
      · simp only [hspace, Bool.false_eq_true, if_false, List.head?_cons, Option.mem_some_iff,
          forall_eq']
        exact and_iff_left trivial

/-- **One call** leaves the domain at a byte above 127 that is met as the first of a token. -/
theorem classifies_iff (h : l.InRange) :
    l.Classifies ↔ ∀ c ∈ (l.rest.dropWhile isSpace).head?, c < 128 := by
  unfold Classifies nextToken scan
  rw [always_bind, always_bind, always_scanWhile l.input _ _ h (by omega)]
  refine ⟨fun hall => hall.1.1, fun hhead => ⟨⟨hhead, fun _ _ _ => trivial⟩, fun l' _ _ => ?_⟩⟩
  -- the other calls are in the domain whatever they see
  apply Only.always
  rcases l'.input[l'.pos]? with _ | c
  · trivial
  refine ⟨uchar_inDomain c,
    fun _ => Only.ite (only_number l') ⟨uchar_inDomain c, fun _ => Only.ite (only_word l') ?_⟩⟩
  exact Only.ite trivial (Only.ite trivial (Only.ite trivial (Only.ite trivial (Only.ite trivial
    (Only.ite (only_literal l') trivial)))))

end Lexer

/-! ## Quotes -/

theorem onlyInLiterals_nil : OnlyInLiterals [] := fun _ _ hc => nomatch hc

/-- After an even number of quotes the count starts again. -/
theorem onlyInLiterals_append {a b : Str} (ha : Even (a.count '"'.toUInt8)) :
    OnlyInLiterals (a ++ b) ↔ OnlyInLiterals a ∧ OnlyInLiterals b := by
  refine ⟨fun hall => ⟨fun i c hc hhigh => ?_, fun i c hc hhigh => ?_⟩,
    fun ⟨hall, hall'⟩ i c hc hhigh => ?_⟩
  · have hi := (List.getElem?_eq_some_iff.1 hc).1
    have hodd := hall i c (by rw [List.getElem?_append_left hi]; exact hc) hhigh
    rwa [List.take_append_of_le_length hi.le] at hodd
  · have hodd :=
      hall (a.length + i) c
        (by rw [List.getElem?_append_right (by omega), Nat.add_sub_cancel_left]; exact hc) hhigh
    rw [List.take_length_add_append, List.count_append] at hodd
    exact (Nat.odd_add'.1 hodd).2 ha
  · by_cases hi : i < a.length
    · rw [List.getElem?_append_left hi] at hc
      rw [List.take_append_of_le_length hi.le]
      exact hall i c hc hhigh
    · obtain ⟨j, rfl⟩ := Nat.exists_eq_add_of_le (not_lt.1 hi)
      rw [List.getElem?_append_right (by omega), Nat.add_sub_cancel_left] at hc
      rw [List.take_length_add_append, List.count_append]
      exact Nat.odd_add'.2 ⟨fun _ => ha, fun _ => hall' j c hc hhigh⟩

/-- Input below 128 has no high byte outside a literal. -/
theorem onlyInLiterals_of_low {s : Str} (h : ∀ c ∈ s, c < 128) : OnlyInLiterals s :=
  fun _ c hc hhigh => absurd (h c (List.mem_of_getElem? hc)) (UInt8.not_lt.2 hhigh)

/-- The text of a literal, with or without its second quote. -/
theorem onlyInLiterals_quote {text : Str} (h : '"'.toUInt8 ∉ text) :
    OnlyInLiterals ('"'.toUInt8 :: text) := by
  rintro (_ | i) c hc hhigh
  · obtain rfl : '"'.toUInt8 = c := Option.some.inj hc
    exact absurd hhigh (by decide)
  · rw [List.take_succ_cons, List.count_cons_self,
      List.count_eq_zero_of_not_mem fun hmem => h (List.mem_of_mem_take hmem)]
    exact odd_one

/-- A lexeme leaves no literal open, and has a byte above 127 outside a literal in front only. -/
theorem Lexeme.onlyInLiterals {token : Token} {lexeme rest : Str} (h : Lexeme token lexeme rest) :
    OnlyInLiterals (lexeme ++ rest) ↔ (∀ c ∈ lexeme.head?, c < 128) ∧ OnlyInLiterals rest := by
  -- lexemes without a quote count as a whole
  have hplain : ∀ {s : Str}, (∀ c ∈ s, c < 128 ∧ c ≠ '"'.toUInt8) →
      (OnlyInLiterals (s ++ rest) ↔ (∀ c ∈ s.head?, c < 128) ∧ OnlyInLiterals rest) := by
    intro s hs
    have hcount : s.count '"'.toUInt8 = 0 := List.count_eq_zero_of_not_mem fun hmem =>
      (hs _ hmem).2 rfl
    rw [onlyInLiterals_append (by rw [hcount]; exact Even.zero)]
    exact and_congr ⟨fun _ c hc => (hs c (List.mem_of_mem_head? hc)).1,
      fun _ => onlyInLiterals_of_low fun c hc => (hs c hc).1⟩
      Iff.rfl
  cases h with
  | number _ hdigits => exact hplain fun c hc => isDigit_lt c (hdigits c hc)
  | word _ hletters hdigits =>
    refine hplain fun c hc => ?_
    rcases List.mem_append.1 hc with hc | hc
    · exact isAlpha_lt c (hletters c hc)
    · exact isDigit_lt c (hdigits c hc)
  | @literal text rest hquote =>
    have hcount : ('"'.toUInt8 :: text ++ ['"'.toUInt8]).count '"'.toUInt8 = 2 := by
      rw [List.count_append, List.count_cons_self, List.count_eq_zero_of_not_mem hquote]
      rfl
    rw [onlyInLiterals_append (by rw [hcount]; exact even_two)]
    refine and_congr ⟨fun _ c hc => ?_, fun _ => ?_⟩ Iff.rfl
    · obtain rfl : '"'.toUInt8 = c := Option.some.inj hc
      decide
    · rintro i c hc hhigh
      by_cases hi : i < ('"'.toUInt8 :: text).length
      · rw [List.getElem?_append_left hi] at hc
        rw [List.take_append_of_le_length hi.le]
        exact onlyInLiterals_quote hquote i c hc hhigh
      · -- the second quote
        rw [List.getElem?_append_right (not_lt.1 hi)] at hc
        obtain rfl := List.mem_singleton.1 (List.mem_of_getElem? hc)
        exact absurd hhigh (by decide)
  -- an open quote makes all that follows literal
  | @unterminated text hquote =>
    rw [List.append_nil]
    refine ⟨fun _ => ⟨fun c hc => ?_, onlyInLiterals_nil⟩, fun _ => onlyInLiterals_quote hquote⟩
    obtain rfl : '"'.toUInt8 = c := Option.some.inj hc
    decide
  | @single c rest _ _ hne =>
    have hcount : [c].count '"'.toUInt8 = 0 := List.count_eq_zero_of_not_mem fun hmem =>
      hne (List.mem_singleton.1 hmem).symm
    rw [onlyInLiterals_append (by rw [hcount]; exact Even.zero)]
    refine and_congr ⟨fun hall d hd => ?_, fun hlow => onlyInLiterals_of_low fun d hd => ?_⟩ Iff.rfl
    · by_contra hhigh
      obtain rfl : c = d := Option.some.inj hd
      exact Nat.not_odd_zero (hall 0 c rfl (UInt8.not_lt.1 hhigh))
    · rw [List.mem_singleton.1 hd]
      exact hlow c rfl

/-- **One call**, on the input that is left. -/
theorem onlyInLiterals_lexOne (s : Str) :
    OnlyInLiterals s ↔ (∀ c ∈ (s.dropWhile isSpace).head?, c < 128) ∧
      OnlyInLiterals (lexOne s).2 := by
  have hspace : ∀ c ∈ s.takeWhile isSpace, isSpace c = true := fun _ => List.mem_takeWhile_imp
  have hcount : (s.takeWhile isSpace).count '"'.toUInt8 = 0 :=
    List.count_eq_zero_of_not_mem fun hmem => (isSpace_lt _ (hspace _ hmem)).2 rfl
  have hlow : OnlyInLiterals (s.takeWhile isSpace) := onlyInLiterals_of_low fun c hc =>
    (isSpace_lt c (hspace c hc)).1
  have hsplit : OnlyInLiterals s ↔ OnlyInLiterals (s.dropWhile isSpace) := by
    conv_lhs => rw [← List.takeWhile_append_dropWhile (p := isSpace) (l := s)]
    rw [onlyInLiterals_append (by rw [hcount]; exact Even.zero)]
    exact and_iff_right hlow
  rw [hsplit]
  unfold lexOne
  rcases s.dropWhile isSpace with _ | ⟨c, s'⟩
  · exact ⟨fun _ => ⟨fun c hc => (nomatch hc), onlyInLiterals_nil⟩, fun _ => onlyInLiterals_nil⟩
  · obtain ⟨lexeme, hlex, hl⟩ := Lexeme.of_lexFrom c s'
    have hhead : lexeme.head? = some c := by
      have heq := congrArg List.head? hlex
      rw [List.head?_append_of_ne_nil _ hl.ne_nil] at heq
      exact heq.symm
    have hiff := hl.onlyInLiterals
    rw [← hlex, hhead] at hiff
    exact hiff

/-! ## Runs -/

/-- What is left after `n` calls. -/
theorem Lexer.rest_after {l : Lexer} (h : l.InRange) (n : ℕ) :
    (l.after n).rest = (fun s => (lexOne s).2)^[n] l.rest := by
  induction n with
  | zero => rfl
  | succ n ih =>
    obtain ⟨k, -, hrest, hnext⟩ := next_eq (after_spans h n).2.1
    rw [Function.iterate_succ_apply', ← ih, after, hnext, ← hrest, rest_advance]

/-- No high byte outside a literal: each call of the lexer starts below 128. -/
theorem onlyInLiterals_iff_calls (s : Str) :
    OnlyInLiterals s ↔ ∀ n, ∀ c ∈ (((fun s => (lexOne s).2)^[n] s).dropWhile isSpace).head?,
      c < 128 := by
  refine ⟨fun hs n => ?_, fun hall => ?_⟩
  · induction n generalizing s with
    | zero => exact ((onlyInLiterals_lexOne s).1 hs).1
    | succ n ih => exact ih _ ((onlyInLiterals_lexOne s).1 hs).2
  · induction s using tokensOf.induct with
    | case1 s hend =>
      refine (onlyInLiterals_lexOne s).2 ⟨hall 0, ?_⟩
      rw [lexOne_end hend]
      exact onlyInLiterals_nil
    | case2 s hne ih => exact (onlyInLiterals_lexOne s).2 ⟨hall 0, ih fun n => hall (n + 1)⟩

/-- All calls of the lexer are in the domain just for such inputs. -/
theorem classifies_iff (input : Str) :
    (∀ n, (Lexer.after ⟨input, 0⟩ n).Classifies) ↔ OnlyInLiterals input := by
  have h0 : Lexer.InRange ⟨input, 0⟩ := Nat.zero_le _
  rw [onlyInLiterals_iff_calls]
  refine forall_congr' fun n => ?_
  rw [Lexer.classifies_iff (Lexer.after_spans h0 n).2.1, Lexer.rest_after h0]
  rfl

/-- The lexer of a run of the parser is one that the calls of `nextToken` lead to. -/
theorem Parser.logging_after {input : Str} {s : Lexer × List Token} (o : ParseOp)
    (h : ∃ n, s.1 = Lexer.after ⟨input, 0⟩ n) :
    ∃ n, (logging o s).2.1 = Lexer.after ⟨input, 0⟩ n := by
  obtain ⟨l, log⟩ := s
  obtain ⟨n, rfl⟩ := h
  cases o with
  | ctype o => exact ⟨n, rfl⟩
  | nextToken =>
    refine ⟨n + 1, ?_⟩
    rw [Lexer.after]
    simp only [logging]
    rcases (Lexer.after ⟨input, 0⟩ n).next with e | ⟨token, l'⟩
    · rfl
    · rfl

/-- The parser calls only on values of words, which are letters. -/
theorem Parser.always_classifies {input : Str} (h : ∀ n, (Lexer.after ⟨input, 0⟩ n).Classifies)
    (rounds : ℕ) :
    Always handler Classifies (serialize rounds) ⟨input, 0⟩ := by
  refine Always.map (h := logging) (s := (⟨input, 0⟩, [])) Prod.fst (fun o s => ?_) ?_
  · obtain ⟨l, log⟩ := s
    cases o with
    | ctype o => exact ⟨rfl, rfl⟩
    | nextToken =>
      simp only [logging, handler]
      rcases l.next with e | ⟨token, l'⟩
      · exact ⟨rfl, rfl⟩
      · exact ⟨rfl, rfl⟩
  · refine Always.mono (J := fun s => ∃ n, s.1 = Lexer.after ⟨input, 0⟩ n)
      (fun o s => logging_after o) (fun o s hs hasked => ?_)
      ⟨0, rfl⟩ (serialize_asked rounds input).1
    cases o with
    | ctype o => exact hasked
    | nextToken =>
      obtain ⟨n, hn⟩ := hs
      have hcall := h n
      rw [← hn] at hcall
      exact hcall

/-- **No call leaves the domain** exactly when every byte above 127 is in a literal. -/
theorem callsInDomain_iff (input : Str) : CallsInDomain input ↔ OnlyInLiterals input := by
  refine ⟨fun h => (classifies_iff input).1 h.lexer, fun h => ?_⟩
  have hlexer := (classifies_iff input).2 h
  exact ⟨hlexer, Parser.always_classifies hlexer⟩

/-- The two bytes of an `é`: the first call of the constructor leaves the domain. -/
theorem not_callsInDomain : ¬ CallsInDomain [0xC3, 0xA9] ∧
    ∀ rounds,
      ¬ Always Parser.handler Parser.Classifies (Parser.serialize rounds) ⟨[0xC3, 0xA9], 0⟩ := by
  have hfirst : ¬ Lexer.Classifies ⟨[0xC3, 0xA9], 0⟩ := by
    intro h
    have hcall : CtypeOp.InDomain (.isspace (schar 0xC3)) := h.1
    exact absurd hcall (by decide)
  exact ⟨fun h => hfirst (h.lexer 0), fun rounds h => hfirst h.1⟩

end ToySQL
