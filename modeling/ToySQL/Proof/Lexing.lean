import ToySQL.Spec.Parser

/-!
# What the lexer reads

`lexOne` is one call of `nextToken` as a function of the input that is left, and
`tokensOf` the tokens before the first `END`. `Lexer.next_eq`: the lexer does that, and
`nextToken` neither throws nor goes on forever.
-/

namespace ToySQL

open Program

/-- What `nextToken` returns at the end. -/
def endToken : Token := ⟨.END, []⟩

/-- The token that starts with a character of no class other than a quote. -/
def singleToken (c : UInt8) : Token :=
  if c = '('.toUInt8 then ⟨.OpenBracket, str "("⟩
  else if c = ')'.toUInt8 then ⟨.CloseBracket, str ")"⟩
  else if c = '*'.toUInt8 then ⟨.Any, str "*"⟩
  else if c = ','.toUInt8 then ⟨.Comma, str ","⟩
  else if c = '='.toUInt8 then ⟨.Equal, str "\""⟩
  else ⟨.Invalid, [c]⟩

/-- A word: letters, then digits. -/
def lexWord (s : Str) : Token × Str :=
  (⟨.Word, s.takeWhile isAlpha ++ (s.dropWhile isAlpha).takeWhile isDigit⟩,
    (s.dropWhile isAlpha).dropWhile isDigit)

/-- What follows an opening quote. -/
def lexLiteral (s : Str) : Token × Str :=
  if s.dropWhile (· ≠ '"'.toUInt8) = [] then (⟨.Invalid, []⟩, [])
  else (⟨.Literal, s.takeWhile (· ≠ '"'.toUInt8)⟩, (s.dropWhile (· ≠ '"'.toUInt8)).tail)

/-- The token that starts with the character `c`, and the input after it. -/
def lexFrom (c : UInt8) (s : Str) : Token × Str :=
  if isDigit c then (⟨.Number, (c :: s).takeWhile isDigit⟩, (c :: s).dropWhile isDigit)
  else if isAlpha c then lexWord (c :: s)
  else if c = '"'.toUInt8 then lexLiteral s
  else (singleToken c, s)

/-- One call of `nextToken`: the token, and the input after it. -/
def lexOne (s : Str) : Token × Str :=
  match s.dropWhile isSpace with
  | [] => (endToken, [])
  | c :: s' => lexFrom c s'

/-! ## The scans -/

variable {p : UInt8 → Lex Bool} {b : UInt8 → Bool} {input : Str}

/-- Dropping as many bytes as the scan passes. -/
theorem drop_length_takeWhile (b : UInt8 → Bool) (s : Str) :
    s.drop (s.takeWhile b).length = s.dropWhile b := by
  induction s with
  | nil => rfl
  | cons c s ih => cases h : b c <;> simp [h, ih]

/-- The bytes a scan passes are the prefix it stands for. -/
theorem take_length_takeWhile (b : UInt8 → Bool) (s : Str) :
    s.take (s.takeWhile b).length = s.takeWhile b := by
  induction s with
  | nil => rfl
  | cons c s ih => cases h : b c <;> simp [h, ih]

/-- The text before a delimiter. -/
theorem takeWhile_delim {line : Str} {delim : UInt8} (h : delim ∉ line) (rest : Str) :
    (line ++ delim :: rest).takeWhile (fun c => c ≠ delim) = line := by
  have hall : ∀ c ∈ line, decide (c ≠ delim) = true := by
    intro c hc
    have hne : c ≠ delim := fun h0 => h (h0 ▸ hc)
    simpa using hne
  rw [List.takeWhile_append_of_pos hall]
  simp

/-- A scan up to a delimiter passes none. -/
theorem delim_takeWhile (s : Str) (delim : UInt8) : delim ∉ s.takeWhile fun c => c ≠ delim := by
  intro h
  simpa using List.mem_takeWhile_imp h

/-- A scan passes the characters that meet its condition. -/
theorem scanWhile_run (hp : ∀ c, (p c).run cHandler () = (.ok (b c), ())) :
    ∀ rounds pos, pos ≤ input.length → input.length < pos + rounds →
      (scanWhile p input rounds pos).run cHandler () =
        (.ok (pos + ((input.drop pos).takeWhile b).length), ()) := by
  intro rounds
  induction rounds with
  | zero => intro pos _ _; omega
  | succ rounds ih =>
    intro pos hle hpos
    unfold scanWhile
    rcases hc : input[pos]? with _ | c
    · have hd : input.drop pos = [] := List.drop_eq_nil_of_le (List.getElem?_eq_none_iff.1 hc)
      simp [hd, run]
    · obtain ⟨hlt, rfl⟩ := List.getElem?_eq_some_iff.1 hc
      simp only [run_bind, hp, List.drop_eq_getElem_cons hlt, List.takeWhile_cons]
      by_cases hb : b input[pos]
      · simp only [hb, if_true]
        rw [ih (pos + 1) (by omega) (by omega), List.length_cons]
        congr 2; omega
      · simp [hb, run]

namespace Lexer

/-- The input that is left. -/
def rest (l : Lexer) : Str := l.input.drop l.pos

/-- The lexer `n` bytes further. -/
def advance (l : Lexer) (n : ℕ) : Lexer := { l with pos := l.pos + n }

/-- The position is in the input, or at its end. -/
def InRange (l : Lexer) : Prop := l.pos ≤ l.input.length

variable {l : Lexer} {n : ℕ}

@[simp] theorem rest_advance : (l.advance n).rest = l.rest.drop n := by simp [rest, advance]

@[simp] theorem advance_advance {k : ℕ} : (l.advance n).advance k = l.advance (n + k) := by
  simp [advance, Nat.add_assoc]

theorem length_rest : l.rest.length = l.input.length - l.pos := by simp [rest]

/-- The lexer stays in the input when it passes bytes of the rest. -/
theorem InRange.advance (h : l.InRange) (hn : n ≤ l.rest.length) : (l.advance n).InRange := by
  rw [length_rest] at hn
  unfold InRange at h ⊢
  simp only [Lexer.advance]
  omega

theorem length_takeWhile_le (b : UInt8 → Bool) (s : Str) : (s.takeWhile b).length ≤ s.length :=
  (s.takeWhile_prefix b).length_le

/-- The byte under the position is the first of the rest. -/
theorem getElem?_pos : l.input[l.pos]? = l.rest.head? := by
  simp [rest, List.head?_drop]

/-- A scan passes the longest prefix of bytes the test accepts. -/
theorem wp_scan (h : l.InRange) (hp : ∀ c, (p c).run cHandler () = (.ok (b c), ()))
    {Q : Lexer → Unit → Prop} {F : LexFault → Unit → Prop} :
    wp cHandler (l.scan p) Q F () ↔ Q (l.advance (l.rest.takeWhile b).length) () := by
  have hlen : l.input.length < l.pos + (l.input.length + 1) := by omega
  unfold wp scan
  rw [run_bind, scanWhile_run hp _ _ h hlen]
  rfl

/-- `substr` in range takes bytes of the rest. -/
theorem substr_eq (h : l.InRange) (count : ℤ) (hc : count = n) :
    substr l.input l.pos count = .ret (l.rest.take n) := by
  unfold substr
  rw [if_neg (Nat.not_lt.2 h), if_neg (by omega), hc]
  rfl

/-- What a routine does: it returns `r.1` and leaves `r.2` of the input. -/
def Reads (l : Lexer) (f : Lex (Token × Lexer)) (r : Token × Str) : Prop :=
  ∃ n ≤ l.rest.length, l.rest.drop n = r.2 ∧
    wp cHandler f (fun r' _ => r' = (r.1, l.advance n)) (fun _ _ => False) ()

/-- A number is a run of digits. -/
theorem number_reads (h : l.InRange) :
    l.Reads l.number (⟨.Number, l.rest.takeWhile isDigit⟩, l.rest.dropWhile isDigit) := by
  refine ⟨_, length_takeWhile_le isDigit _, drop_length_takeWhile _ _, ?_⟩
  unfold number
  rw [wp_bind, wp_scan (b := isDigit) h fun _ => rfl]
  have hsub := substr_eq h (n := (l.rest.takeWhile isDigit).length)
    (↑(l.advance (l.rest.takeWhile isDigit).length).pos - ↑l.pos) (by simp [advance])
  simp only [advance] at hsub ⊢
  rw [hsub, bind_ret, pure_eq, wp_ret, take_length_takeWhile]

/-- A word is a run of letters, or one byte that is not the beginning of any token. -/
theorem word_reads (h : l.InRange) : l.Reads l.word (lexWord l.rest) := by
  set k := (l.rest.takeWhile isAlpha).length with hk
  set d := ((l.rest.dropWhile isAlpha).takeWhile isDigit).length with hd
  have hdrop : l.rest.drop k = l.rest.dropWhile isAlpha := drop_length_takeWhile _ _
  have hk_le : k ≤ l.rest.length := length_takeWhile_le _ _
  have hd_le : d ≤ (l.rest.drop k).length := by rw [hdrop]; exact length_takeWhile_le _ _
  have htake : l.rest.take (k + d) = (lexWord l.rest).1.value := by
    rw [List.take_add, hdrop, take_length_takeWhile, take_length_takeWhile]
    rfl
  refine ⟨k + d, ?_, ?_, ?_⟩
  · rw [List.length_drop] at hd_le; omega
  · rw [← List.drop_drop, hdrop]; exact drop_length_takeWhile _ _
  unfold word
  rw [wp_bind, wp_scan (b := isAlpha) h fun _ => rfl, wp_bind,
    wp_scan (b := isDigit) (h.advance hk_le) fun _ => rfl, rest_advance, advance_advance, hdrop]
  have hsub := substr_eq h (n := k + d) (↑(l.advance (k + d)).pos - ↑l.pos) (by simp [advance])
  simp only [advance] at hsub ⊢
  rw [hsub, bind_ret, pure_eq, wp_ret, htake]
  rfl

/-- A literal goes up to the next quote, or to the end. -/
theorem literal_reads (h : l.InRange) {s : Str} (hs : l.rest = '"'.toUInt8 :: s) :
    l.Reads l.literal (lexLiteral s) := by
  set isText : UInt8 → Bool := fun c => c ≠ '"'.toUInt8 with hText
  set k := (s.takeWhile isText).length with hk
  have h1 : (l.advance 1).InRange := h.advance (by rw [hs]; simp)
  have hrest : (l.advance 1).rest = s := by rw [rest_advance, hs]; rfl
  have hdrop : s.drop k = s.dropWhile isText := drop_length_takeWhile _ _
  have hk_le : k ≤ s.length := length_takeWhile_le _ _
  have hlen : l.input.length = l.pos + 1 + s.length := by
    have := l.length_rest
    rw [hs, List.length_cons] at this
    unfold InRange at h
    omega
  -- the closing quote is missing just when the scan reaches the end
  have hwp : ∀ {Q : Token × Lexer → Unit → Prop} {F : LexFault → Unit → Prop},
      wp cHandler l.literal Q F () ↔
        if s.dropWhile isText = [] then Q (⟨.Invalid, []⟩, l.advance (1 + k)) ()
        else Q (⟨.Literal, s.takeWhile isText⟩, l.advance (1 + k + 1)) () := by
    intro Q F
    unfold literal
    have hscan := fun R => wp_scan (p := fun c => pure (decide (c ≠ '"'.toUInt8))) (b := isText)
      (Q := R) (F := F) h1 fun _ => rfl
    rw [hrest, advance_advance, ← hk] at hscan
    have hend : (l.advance (1 + k)).pos = l.input.length ↔ s.dropWhile isText = [] := by
      rw [← hdrop, List.drop_eq_nil_iff, hlen]
      simp only [advance]
      omega
    have hsub := substr_eq h1 (n := k) (↑(l.pos + (1 + k) + 1) - 1 - ↑(l.pos + 1))
      (by push_cast; ring)
    rw [hrest, take_length_takeWhile] at hsub
    rw [wp_bind]
    simp only [advance] at hscan hend hsub
    rw [hscan]
    simp only [hend, hsub]
    split
    · rfl
    · exact Iff.rfl
  unfold lexLiteral
  -- without a closing quote the token is invalid and the input is used up
  by_cases hnone : s.dropWhile isText = []
  · rw [if_pos hnone]
    refine ⟨1 + k, by rw [hs, List.length_cons]; omega, ?_, ?_⟩
    · rw [hs, Nat.add_comm, List.drop_succ_cons, hdrop, hnone]
    · rw [hwp, if_pos hnone]
  · rw [if_neg hnone]
    have hk_lt : k < s.length := by
      by_contra hge
      exact hnone (hdrop ▸ List.drop_eq_nil_of_le (by omega))
    refine ⟨1 + k + 1, by rw [hs, List.length_cons]; omega, ?_, ?_⟩
    · rw [hs, Nat.add_assoc, Nat.add_comm, List.drop_succ_cons, ← List.drop_drop, hdrop,
        List.drop_one]
    · rw [hwp, if_neg hnone]

/-- Every character that is no digit, letter or quote is a token. -/
theorem wp_single {c : UInt8} {Q : Token × Lexer → Unit → Prop} {F : LexFault → Unit → Prop}
    (hq : c ≠ '"'.toUInt8) :
    wp cHandler (if c = '('.toUInt8 then l.single .OpenBracket (str "(")
      else if c = ')'.toUInt8 then l.single .CloseBracket (str ")")
      else if c = '*'.toUInt8 then l.single .Any (str "*")
      else if c = ','.toUInt8 then l.single .Comma (str ",")
      else if c = '='.toUInt8 then l.single .Equal (str "\"")
      else if c = '"'.toUInt8 then l.literal
      else l.single .Invalid [c]) Q F () ↔ Q (singleToken c, l.advance 1) () := by
  unfold singleToken
  simp only [if_neg hq]
  split_ifs <;> exact Iff.rfl

/-- The branches of `nextToken` after the whitespace. -/
theorem from_reads (h : l.InRange) {c : UInt8} {s : Str} (hs : l.rest = c :: s) :
    l.Reads (do
      if (← lexCall (.isdigit (uchar c))) then l.number
      else if (← lexCall (.isalpha (uchar c))) then l.word
      else if c = '('.toUInt8 then l.single .OpenBracket (str "(")
      else if c = ')'.toUInt8 then l.single .CloseBracket (str ")")
      else if c = '*'.toUInt8 then l.single .Any (str "*")
      else if c = ','.toUInt8 then l.single .Comma (str ",")
      else if c = '='.toUInt8 then l.single .Equal (str "\"")
      else if c = '"'.toUInt8 then l.literal
      else l.single .Invalid [c]) (lexFrom c s) := by
  have hcall : ∀ {o : CtypeOp} {Q : o.Res → Unit → Prop} {F : LexFault → Unit → Prop},
      wp cHandler (lexCall o) Q F () ↔ Q (cLocale o) () := Iff.rfl
  unfold lexFrom Reads
  simp only [wp_bind, hcall]
  -- digits first, then letters, then the single characters
  by_cases hd : isDigit c
  · have hd' : cLocale (.isdigit (uchar c)) = true := hd
    simp only [hd, hd', if_true, ← hs]
    exact number_reads h
  have hd' : cLocale (.isdigit (uchar c)) = false := Bool.eq_false_iff.2 hd
  by_cases ha : isAlpha c
  · have ha' : cLocale (.isalpha (uchar c)) = true := ha
    simp only [hd, hd', ha, ha', if_true, Bool.false_eq_true, if_false, wp_bind, hcall, ← hs]
    exact word_reads h
  have ha' : cLocale (.isalpha (uchar c)) = false := Bool.eq_false_iff.2 ha
  simp only [hd, hd', ha, ha', Bool.false_eq_true, if_false, wp_bind, hcall]
  by_cases hq : c = '"'.toUInt8
  · subst hq
    exact literal_reads h hs
  · rw [if_neg hq]
    exact ⟨1, by rw [hs]; simp, by rw [hs]; rfl, (wp_single hq).2 rfl⟩

/-- **One call of the lexer.** -/
theorem next_eq (h : l.InRange) :
    ∃ n ≤ l.rest.length, l.rest.drop n = (lexOne l.rest).2 ∧
      l.next = .ok ((lexOne l.rest).1, l.advance n) := by
  set k := (l.rest.takeWhile isSpace).length with hk
  have hdrop : l.rest.drop k = l.rest.dropWhile isSpace := drop_length_takeWhile _ _
  have hk_le : k ≤ l.rest.length := length_takeWhile_le _ _
  have hreads : l.Reads l.nextToken (lexOne l.rest) := by
    have hscan : ∀ R F, wp cHandler (l.scan fun c => lexCall (.isspace (schar c))) R F () ↔
        R (l.advance k) () := fun R F => wp_scan (b := isSpace) h fun _ => rfl
    unfold Reads nextToken
    simp only [wp_bind, hscan, getElem?_pos, rest_advance, hdrop]
    unfold lexOne
    rcases hs : l.rest.dropWhile isSpace with _ | ⟨c, s⟩
    · exact ⟨k, hk_le, by rw [hdrop, hs], rfl⟩
    · have hrest : (l.advance k).rest = c :: s := by rw [rest_advance, hdrop, hs]
      obtain ⟨n, hn, hleft, hrun⟩ := from_reads (h.advance hk_le) hrest
      rw [rest_advance, List.length_drop] at hn
      rw [rest_advance, List.drop_drop] at hleft
      rw [advance_advance] at hrun
      exact ⟨k + n, by omega, hleft, hrun⟩
  obtain ⟨n, hn, hleft, hrun⟩ := hreads
  obtain ⟨r, _, hr, rfl⟩ := wp_total hrun
  exact ⟨n, hn, hleft, by unfold next; rw [hr]⟩

end Lexer

/-! ## The tokens of an input -/

/-- No byte alone is the end. -/
theorem singleToken_type (c : UInt8) : (singleToken c).type ≠ .END := by
  unfold singleToken
  split_ifs <;> simp

/-- A token that starts with a character is none of the end. -/
theorem lexFrom_type (c : UInt8) (s : Str) : (lexFrom c s).1.type ≠ .END := by
  unfold lexFrom lexWord lexLiteral
  split_ifs <;> simp [singleToken_type]

theorem length_dropWhile_le (b : UInt8 → Bool) (s : Str) : (s.dropWhile b).length ≤ s.length :=
  (s.dropWhile_suffix b).length_le

/-- Reading a token never gives bytes back. -/
theorem lexFrom_length (c : UInt8) (s : Str) : (lexFrom c s).2.length ≤ s.length := by
  unfold lexFrom
  split_ifs with hd ha hq
  · rw [List.dropWhile_cons, if_pos hd]; exact length_dropWhile_le _ _
  · unfold lexWord
    rw [List.dropWhile_cons, if_pos ha]
    exact (length_dropWhile_le _ _).trans (length_dropWhile_le _ _)
  · unfold lexLiteral
    split_ifs
    · exact Nat.zero_le _
    · rw [List.length_tail]
      exact (Nat.sub_le _ _).trans (length_dropWhile_le _ _)
  · exact le_rfl

/-- The end is met where only whitespace is left. -/
theorem lexOne_end {s : Str} (h : (lexOne s).1.type = .END) : lexOne s = (endToken, []) := by
  unfold lexOne at h ⊢
  split
  · rfl
  · rename_i c s' hs
    rw [hs] at h
    exact absurd h (lexFrom_type c s')

/-- A token that is not `END` takes at least one byte. -/
theorem lexOne_lt {s : Str} (h : (lexOne s).1.type ≠ .END) : (lexOne s).2.length < s.length := by
  have hle := length_dropWhile_le isSpace s
  unfold lexOne at h ⊢
  split
  · rename_i hs
    rw [hs] at h
    exact absurd rfl h
  · rename_i c s' hs
    rw [hs, List.length_cons] at hle
    exact (lexFrom_length c s').trans_lt hle

/-- The tokens before the first `END`. -/
def tokensOf (s : Str) : List Token :=
  if _h : (lexOne s).1.type = .END then [] else (lexOne s).1 :: tokensOf (lexOne s).2
termination_by s.length
decreasing_by exact lexOne_lt _h

theorem tokensOf_end {s : Str} (h : (lexOne s).1.type = .END) : tokensOf s = [] := by
  rw [tokensOf, dif_pos h]

/-- The first token, and those of what is left. -/
theorem tokensOf_cons {s : Str} (h : (lexOne s).1.type ≠ .END) :
    tokensOf s = (lexOne s).1 :: tokensOf (lexOne s).2 := by
  rw [tokensOf, dif_neg h]

theorem tokensOf_nil : tokensOf [] = [] := tokensOf_end rfl

theorem length_tokensOf (s : Str) : (tokensOf s).length ≤ s.length := by
  induction s using tokensOf.induct with
  | case1 s h => rw [tokensOf_end h]; exact Nat.zero_le _
  | case2 s h ih =>
    rw [tokensOf_cons h, List.length_cons]
    exact ih.trans_lt (lexOne_lt h)

/-- `END` is none of the tokens. -/
theorem type_of_mem_tokensOf (s : Str) : ∀ t ∈ tokensOf s, t.type ≠ .END := by
  induction s using tokensOf.induct with
  | case1 s h => simp [tokensOf_end h]
  | case2 s h ih =>
    rw [tokensOf_cons h]
    exact List.forall_mem_cons.2 ⟨h, ih⟩

namespace Lexer

variable {l : Lexer}

/-- **`nextToken`** takes the first token off the list. -/
theorem tokensOf_next (h : l.InRange) :
    ∃ l', l.next = .ok ((tokensOf l.rest).headD endToken, l') ∧ l'.InRange ∧
      tokensOf l'.rest = (tokensOf l.rest).tail := by
  obtain ⟨n, hn, hleft, hnext⟩ := next_eq h
  refine ⟨l.advance n, ?_, h.advance hn, ?_⟩
  · rw [hnext]
    by_cases he : (lexOne l.rest).1.type = .END
    · rw [tokensOf_end he, lexOne_end he]; rfl
    · rw [tokensOf_cons he]; rfl
  · rw [rest_advance, hleft]
    by_cases he : (lexOne l.rest).1.type = .END
    · rw [tokensOf_end he, lexOne_end he]; exact tokensOf_nil
    · rw [tokensOf_cons he]; rfl

/-- **Repeated calls**: the tokens of the input, then `END` forever. -/
theorem calls_eq (n : ℕ) (h : l.InRange) :
    l.calls n = (tokensOf l.rest ++ List.replicate n endToken).take n := by
  induction n generalizing l with
  | zero => rfl
  | succ n ih =>
    obtain ⟨l', hnext, h', htail⟩ := tokensOf_next h
    unfold calls
    rw [hnext]
    simp only [ih h', htail]
    cases tokensOf l.rest with
    | nil => simp [List.replicate_succ]
    | cons t ts =>
      simp only [List.headD_cons, List.tail_cons, List.cons_append, List.take_succ_cons]
      congr 1
      rw [List.take_append, List.take_append, List.take_replicate, List.take_replicate]
      congr 2
      omega

/-- The tokens of a lexer are those of the rest of its input. -/
theorem tokens_eq (h : l.InRange) : l.tokens = tokensOf l.rest := by
  have hlen : (tokensOf l.rest).length ≤ l.input.length :=
    (length_tokensOf _).trans (by rw [length_rest]; exact Nat.sub_le _ _)
  unfold tokens
  rw [calls_eq _ h, List.take_append, List.take_of_length_le (by omega), List.take_replicate,
    Nat.min_eq_left (by omega),
    show l.input.length + 1 - (tokensOf l.rest).length =
      (l.input.length - (tokensOf l.rest).length) + 1 by omega, List.replicate_succ,
    List.takeWhile_append_of_pos (by simpa using type_of_mem_tokensOf _)]
  simp [endToken]

end Lexer

/-! ## The parser over the tokens -/

namespace Parser

/-- A list of tokens answers the parser, and `END` after them. -/
def listHandler : Handler parseInterface Stop (List Token)
  | .nextToken, ts => (.ok (ts.headD endToken), ts.tail)
  | .ctype o, ts => (.ok (cLocale o), ts)

/-- One operation of the parser on the lexer and on the list of its tokens. -/
theorem handler_step {l : Lexer} (o : ParseOp) (hl : l.InRange) :
    (handler o l).1 = (listHandler o (tokensOf l.rest)).1 ∧
      tokensOf (handler o l).2.rest = (listHandler o (tokensOf l.rest)).2 ∧
        (handler o l).2.InRange := by
  cases o with
  | nextToken =>
    obtain ⟨l', hnext, h', htail⟩ := Lexer.tokensOf_next hl
    simp only [handler, hnext, listHandler]
    exact ⟨trivial, htail, h'⟩
  | ctype o => exact ⟨rfl, rfl, hl⟩

/-- A parse leaves the lexer in its input. -/
theorem run_inRange {α : Type} (f : Parse α) {l : Lexer} (hl : l.InRange) :
    (f.run handler l).2.InRange :=
  run_invariant (C := Lexer.InRange) (fun o _ hl => (handler_step o hl).2.2) f l hl

/-- The routines of the parser see the input as the list of its tokens. -/
theorem run_listHandler {α : Type} (f : Parse α) {l : Lexer} (hl : l.InRange) :
    (f.run handler l).1 = (f.run listHandler (tokensOf l.rest)).1 ∧
      tokensOf (f.run handler l).2.rest = (f.run listHandler (tokensOf l.rest)).2 :=
  run_map (J := Lexer.InRange) (fun l => tokensOf l.rest) (fun o _ hl => handler_step o hl) f l hl

/-- **The parser sees the input as the list of its tokens.** -/
theorem serialize_eq (n : ℕ) (input : Str) :
    ((serialize n).run handler ⟨input, 0⟩).1 = ((serialize n).run listHandler (tokensOf input)).1 :=
  (run_listHandler (serialize n) (l := ⟨input, 0⟩) (Nat.zero_le _)).1

end Parser

end ToySQL
