import ToySQL.Proof.Parsing
import ToySQL.Spec.Requests

/-!
# The parser asks for a token only before the end

Every routine of the parser looks at the type of a token before it asks for the next one,
and leaves where it is `END`; and `toupper` is applied to letters only. `wp_serialize`
says so of whole runs, by the handler that refuses everything else, and `serialize_asked`
reads it back.
-/

namespace ToySQL

open Program

/-- A byte seen as `unsigned char` is in the domain of the character functions. -/
theorem uchar_inDomain (c : UInt8) : 0 ≤ uchar c ∧ uchar c ≤ 255 := by
  have := c.toNat_lt
  unfold uchar
  omega

/-- A letter is no byte above 127. -/
theorem schar_of_isAlpha (c : UInt8) : isAlpha c = true → 0 ≤ schar c ∧ schar c ≤ 255 := by
  revert c
  apply forall_byte
  decide +kernel

namespace Parser

/-- What the parser may ask for: a token while no `END` was returned, and the class of a
character in the domain. -/
def Asked : ParseOp → Lexer × List Token → Prop
  | .nextToken, s => ∀ token ∈ s.2, token.type ≠ .END
  | .ctype o, _ => o.InDomain

instance (o : ParseOp) (s : Lexer × List Token) : Decidable (Asked o s) :=
  match o with
  | .nextToken => inferInstanceAs (Decidable (∀ token ∈ s.2, token.type ≠ .END))
  | .ctype o => inferInstanceAs (Decidable o.InDomain)

namespace Asking

/-- The fault of a refused request. The lexer throws nothing, so it is no other's. -/
def refused : Stop := .lexer .outOfRange

abbrev handler : Handler parseInterface Stop (Lexer × List Token) :=
  Program.guard logging Asked refused

/-- The end was not returned yet. -/
structure Ready (s : Lexer × List Token) : Prop where
  inRange : s.1.InRange
  open_ : ∀ token ∈ s.2, token.type ≠ .END

/-- After a token: the end has no text, and every other token leaves the lexer ready. -/
structure Got (token : Token) (s : Lexer × List Token) : Prop where
  text : token.type = .END → token.value = []
  ready : token.type ≠ .END → Ready s

def NotRefused (e : Stop) (_ : Lexer × List Token) : Prop := e ≠ refused

variable {β : Type} {s : Lexer × List Token} {t : Token}

/-- After a token of a type other than `END` the lexer may be asked again. -/
theorem Got.ready_of (h : Got t s) {type : ToySQLTokenType} (ht : decide (t.type = type) = true)
    (htype : type ≠ .END) : Ready s := by
  apply h.ready
  rw [of_decide_eq_true ht]
  exact htype

/-- After a value the lexer may be asked again. -/
theorem Got.ready_of_value (h : Got t s) (ht : t.isValue = true) : Ready s := by
  apply h.ready
  rcases isValue_iff.1 ht with htype | htype
  · rw [htype]
    decide
  · rw [htype]
    decide

/-! ## The requests -/

/-- `nextToken`, where the lexer may be asked. -/
theorem wp_nextToken {Q : Token → Lexer × List Token → Prop} (hs : Ready s)
    (h : ∀ t s', Got t s' → Q t s') : wp handler nextToken Q NotRefused s := by
  obtain ⟨l, log⟩ := s
  obtain ⟨l', hnext, hin, -⟩ := Lexer.tokensOf_next hs.inRange
  unfold nextToken
  rw [wp_perform]
  have hasked : Asked .nextToken (l, log) := hs.open_
  simp only [Program.guard, if_pos hasked, logging, hnext]
  refine h _ _ ⟨fun hend => ?_, fun hne => ⟨hin, fun token htoken => ?_⟩⟩
  · -- no token before the end has its type
    rcases htokens : tokensOf l.rest with _ | ⟨t, ts⟩
    · rfl
    · rw [htokens] at hend
      exact absurd hend (type_of_mem_tokensOf l.rest t (by rw [htokens]; exact List.mem_cons_self))
  · rcases List.mem_append.1 htoken with hold | hnew
    · exact hs.open_ token hold
    · rw [List.mem_singleton.1 hnew]
      exact hne

/-- A check that fails ends the parse with the empty object. -/
theorem wp_require {ok : Bool} {Q : Unit → Lexer × List Token → Prop} (h : ok = true → Q () s) :
    wp handler (require ok) Q NotRefused s := by
  cases ok with
  | true => exact h rfl
  | false => exact fun hrefused => nomatch hrefused

theorem wp_object {Q : β → Lexer × List Token → Prop} : wp handler (.fail .object) Q NotRefused s :=
  fun hrefused => nomatch hrefused

/-- A call of a character function in its domain is answered. -/
theorem wp_ctype {o : CtypeOp} (ho : o.InDomain) {Q : o.Res → Lexer × List Token → Prop}
    (h : Q (cLocale o) s) :
    wp handler (Program.perform (I := parseInterface) (.ctype o)) Q NotRefused s := by
  have hasked : Asked (.ctype o) s := ho
  rw [wp_perform]
  simp only [Program.guard, if_pos hasked, logging]
  exact h

theorem wp_isalpha {Q : Bool → Lexer × List Token → Prop} (c : UInt8) (h : Q (isAlpha c) s) :
    wp handler (isalpha (uchar c)) Q NotRefused s :=
  wp_ctype (show CtypeOp.InDomain (.isalpha (uchar c)) from uchar_inDomain c) h

/-- The `char` value of a letter is not negative. -/
theorem wp_toupper {Q : ℤ → Lexer × List Token → Prop} {c : UInt8} (hc : isAlpha c = true)
    (h : ∀ u, Q u s) :
    wp handler (toupper (schar c)) Q NotRefused s :=
  wp_ctype (show CtypeOp.InDomain (.toupper (schar c)) from schar_of_isAlpha c hc) (h _)

/-- The loop of `checkWords` only calls character functions in their domain. -/
theorem wp_checkWordsLoop {Q : Bool → Lexer × List Token → Prop} (h : ∀ b, Q b s) :
    ∀ s₁ s₂, wp handler (checkWordsLoop s₁ s₂) Q NotRefused s := by
  intro s₁
  -- on the first word: `toupper` is called only after `isalpha` said yes
  induction s₁ with
  | nil =>
    intro s₂
    exact h true
  | cons c₁ s₁ ih =>
    rintro (_ | ⟨c₂, s₂⟩)
    · exact h true
    unfold checkWordsLoop
    refine (wp_bind _ _).2 (wp_isalpha c₁ ?_)
    by_cases h1 : isAlpha c₁
    swap
    · simp only [h1, Bool.not_false, if_true]
      exact h false
    simp only [h1, Bool.not_true, Bool.false_eq_true, if_false]
    refine (wp_bind _ _).2 (wp_isalpha c₂ ?_)
    by_cases h2 : isAlpha c₂
    swap
    · simp only [h2, Bool.not_false, if_true]
      exact h false
    simp only [h2, Bool.not_true, Bool.false_eq_true, if_false]
    refine (wp_bind _ _).2 (wp_toupper h1 fun u₁ => (wp_bind _ _).2 (wp_toupper h2 fun u₂ => ?_))
    split
    · exact h false
    · exact ih s₂

/-- `checkWords` finds no word in a token without text. -/
theorem wp_checkWords {s₁ s₂ : Str} {Q : Bool → Lexer × List Token → Prop}
    (h : ∀ b, (b = true → s₁.length = s₂.length) → Q b s) :
    wp handler (checkWords s₁ s₂) Q NotRefused s := by
  unfold checkWords
  split
  · exact h false fun hb => nomatch hb
  · rename_i hlen
    exact wp_checkWordsLoop (fun b => h b fun _ => not_not.1 hlen) s₁ s₂

/-- The type of a column is compared with two words. -/
theorem wp_columnType {colType : Str} {Q : Str → Lexer × List Token → Prop} (h : ∀ w, Q w s) :
    wp handler (columnType colType) Q NotRefused s := by
  unfold columnType
  refine (wp_bind _ _).2 (wp_checkWords fun b _ => ?_)
  split
  · exact h _
  refine (wp_bind _ _).2 (wp_checkWords fun b _ => ?_)
  split
  · exact h _
  · exact wp_object

/-! ## The loops -/

/-- The two ends of a bracketed item. -/
theorem wp_separator {L R : Parse β} {Q : β → Lexer × List Token → Prop} (hs : Ready s)
    (hclose : ∀ s', Ready s' → wp handler L Q NotRefused s')
    (hcomma : ∀ s', Ready s' → wp handler R Q NotRefused s') :
    wp handler (do
      let currentToken ← nextToken
      if currentToken.type = .CloseBracket then L else if currentToken.type = .Comma then
        R else .fail .object)
      Q NotRefused s := by
  refine (wp_bind _ _).2 (wp_nextToken hs fun t s' hgot => ?_)
  split
  · exact hclose s' (hgot.ready_of (decide_eq_true ‹_›) (by decide))
  split
  · exact hcomma s' (hgot.ready_of (decide_eq_true ‹_›) (by decide))
  · exact wp_object

/-- The loop over the columns of `CREATE`. -/
theorem wp_createLoop {Q : Fields → Lexer × List Token → Prop} (h : ∀ obj s', Ready s' → Q obj s') :
    ∀ n obj s, Ready s → wp handler (createLoop n obj) Q NotRefused s := by
  intro n
  induction n with
  | zero =>
    intro obj s _ hrefused
    cases hrefused
  | succ n ih =>
    intro obj s hs
    unfold createLoop
    refine (wp_bind _ _).2 (wp_nextToken hs fun name s₁ hname => ?_)
    refine (wp_bind _ _).2 (wp_require fun h1 => ?_)
    refine (wp_bind _ _).2 (wp_nextToken (hname.ready_of h1 (by decide)) fun type s₂ htype => ?_)
    refine (wp_bind _ _).2 (wp_require fun h2 => ?_)
    refine (wp_bind _ _).2 (wp_columnType fun w => ?_)
    exact wp_separator (htype.ready_of h2 (by decide)) (fun s' hs' => h _ s' hs') fun s' hs' =>
      ih _ s' hs'

/-- The loop over the values of `INSERT`. -/
theorem wp_insertLoop {Q : Fields → Lexer × List Token → Prop} (h : ∀ obj s', Ready s' → Q obj s') :
    ∀ n obj s, Ready s → wp handler (insertLoop n obj) Q NotRefused s := by
  intro n
  induction n with
  | zero =>
    intro obj s _ hrefused
    cases hrefused
  | succ n ih =>
    intro obj s hs
    unfold insertLoop
    refine (wp_bind _ _).2 (wp_nextToken hs fun value s₁ hvalue => ?_)
    refine (wp_bind _ _).2 (wp_require fun h1 => ?_)
    exact wp_separator (hvalue.ready_of_value h1) (fun s' hs' => h _ s' hs') fun s' hs' =>
      ih _ s' hs'

/-- The pairs end with any token but a comma, also with `END`. -/
theorem wp_pairsLoop {Q : Fields × Token → Lexer × List Token → Prop} (field : Str)
    (h : ∀ obj t s', Got t s' → Q (obj, t) s') :
    ∀ n obj s, Ready s → wp handler (pairsLoop field n obj) Q NotRefused s := by
  intro n
  induction n with
  | zero =>
    intro obj s _ hrefused
    cases hrefused
  | succ n ih =>
    intro obj s hs
    unfold pairsLoop
    refine (wp_bind _ _).2 (wp_nextToken hs fun key s₁ hkey => ?_)
    refine (wp_bind _ _).2 (wp_require fun h1 => ?_)
    refine (wp_bind _ _).2 (wp_nextToken (hkey.ready_of h1 (by decide)) fun equal s₂ hequal => ?_)
    refine (wp_bind _ _).2 (wp_require fun h2 => ?_)
    refine (wp_bind _ _).2 (wp_nextToken (hequal.ready_of h2 (by decide)) fun value s₃ hvalue => ?_)
    refine (wp_bind _ _).2 (wp_require fun h3 => ?_)
    refine (wp_bind _ _).2 (wp_nextToken (hvalue.ready_of_value h3) fun t s₄ hgot => ?_)
    split
    · exact ih _ s₄ (hgot.ready_of (decide_eq_true ‹_›) (by decide))
    · exact h _ t s₄ hgot

/-- The loop over the columns of `SELECT`. It ends with a token it has asked for. -/
theorem wp_selectLoop {Q : Fields × Token → Lexer × List Token → Prop}
    (h : ∀ obj t s', Got t s' → Q (obj, t) s') :
    ∀ n obj s, Ready s → wp handler (selectLoop n obj) Q NotRefused s := by
  intro n
  induction n with
  | zero =>
    intro obj s _ hrefused
    cases hrefused
  | succ n ih =>
    intro obj s hs
    unfold selectLoop
    refine (wp_bind _ _).2 (wp_nextToken hs fun t s₁ hgot => ?_)
    split
    · exact h _ t s₁ hgot
    rename_i hcomma
    have hready := hgot.ready_of (decide_eq_true (not_not.1 hcomma)) (by decide)
    refine (wp_bind _ _).2 (wp_nextToken hready fun column s₂ hcolumn => ?_)
    refine (wp_bind _ _).2 (wp_require fun h1 => ?_)
    exact ih _ s₂ (hcolumn.ready_of h1 (by decide))

/-! ## The statements -/

variable {Q : Json → Lexer × List Token → Prop}

/-- The end of a statement. Nothing is asked for after it. -/
theorem wp_finish {obj : Fields} (hs : Ready s) (h : ∀ j s', Q j s') :
    wp handler (do
      let currentToken ← nextToken
      require (currentToken.type = .END)
      pure (Json.obj obj)) Q NotRefused s := by
  refine (wp_bind _ _).2 (wp_nextToken hs fun t s₁ _ => ?_)
  exact (wp_bind _ _).2 (wp_require fun _ => h _ s₁)

/-- The conditions after `WHERE`, or nothing. -/
theorem wp_whereClause (n : ℕ) (obj : Fields) (hgot : Got t s) (h : ∀ j s', Q j s') :
    wp handler (whereClause n obj t) Q NotRefused s := by
  unfold whereClause
  split
  · exact h _ s
  refine (wp_bind _ _).2 (wp_require fun h1 => ?_)
  refine (wp_bind _ _).2 (wp_checkWords fun b _ => ?_)
  refine (wp_bind _ _).2 (wp_require fun _ => ?_)
  refine (wp_bind _ _).2
    (wp_pairsLoop _ (fun obj' t' s' _ => ?_) n obj s (hgot.ready_of h1 (by decide)))
  exact (wp_bind _ _).2 (wp_require fun _ => h _ s')

/-- `Create` asks for no token after `END`. -/
theorem wp_create (n : ℕ) (hs : Ready s) (h : ∀ j s', Q j s') :
    wp handler (create n) Q NotRefused s := by
  unfold create
  refine (wp_bind _ _).2 (wp_nextToken hs fun table s₁ htable => ?_)
  refine (wp_bind _ _).2 (wp_require fun h1 => ?_)
  refine (wp_bind _ _).2 (wp_checkWords fun b _ => ?_)
  refine (wp_bind _ _).2 (wp_require fun _ => ?_)
  refine (wp_bind _ _).2 (wp_nextToken (htable.ready_of h1 (by decide)) fun name s₂ hname => ?_)
  refine (wp_bind _ _).2 (wp_require fun h2 => ?_)
  refine (wp_bind _ _).2
    (wp_nextToken (hname.ready_of h2 (by decide)) fun bracket s₃ hbracket => ?_)
  refine (wp_bind _ _).2 (wp_require fun h3 => ?_)
  refine (wp_bind _ _).2
    (wp_createLoop (fun obj s' hs' => ?_) n _ s₃ (hbracket.ready_of h3 (by decide)))
  exact wp_finish hs' h

/-- `Insert` asks for no token after `END`. -/
theorem wp_insert (n : ℕ) (hs : Ready s) (h : ∀ j s', Q j s') :
    wp handler (insert n) Q NotRefused s := by
  unfold insert
  refine (wp_bind _ _).2 (wp_nextToken hs fun into s₁ hinto => ?_)
  refine (wp_bind _ _).2 (wp_require fun h1 => ?_)
  refine (wp_bind _ _).2 (wp_checkWords fun b _ => ?_)
  refine (wp_bind _ _).2 (wp_require fun _ => ?_)
  refine (wp_bind _ _).2 (wp_nextToken (hinto.ready_of h1 (by decide)) fun name s₂ hname => ?_)
  refine (wp_bind _ _).2 (wp_require fun h2 => ?_)
  refine (wp_bind _ _).2 (wp_nextToken (hname.ready_of h2 (by decide)) fun values s₃ hvalues => ?_)
  refine (wp_bind _ _).2 (wp_require fun h3 => ?_)
  refine (wp_bind _ _).2 (wp_checkWords fun b _ => ?_)
  refine (wp_bind _ _).2 (wp_require fun _ => ?_)
  refine (wp_bind _ _).2
    (wp_nextToken (hvalues.ready_of h3 (by decide)) fun bracket s₄ hbracket => ?_)
  refine (wp_bind _ _).2 (wp_require fun h4 => ?_)
  refine (wp_bind _ _).2
    (wp_insertLoop (fun obj s' hs' => ?_) n _ s₄ (hbracket.ready_of h4 (by decide)))
  exact wp_finish hs' h

theorem wp_selectColumns {Q : Fields × Token → Lexer × List Token → Prop} (n : ℕ) (obj : Fields)
    (hgot : Got t s)
    (h : ∀ obj t s', Got t s' → Q (obj, t) s') :
    wp handler (selectColumns n obj t) Q NotRefused s := by
  unfold selectColumns
  split
  · exact wp_selectLoop h n _ s (hgot.ready_of (decide_eq_true ‹_›) (by decide))
  split
  · refine (wp_bind _ _).2
      (wp_nextToken (hgot.ready_of (decide_eq_true ‹_›) (by decide)) fun t' s' hgot' => ?_)
    exact h _ t' s' hgot'
  · exact wp_object

/-- The token before `FROM` may be `END`, whose text is not `FROM`. -/
theorem wp_select (n : ℕ) (hs : Ready s) (h : ∀ j s', Q j s') :
    wp handler (select n) Q NotRefused s := by
  unfold select
  refine (wp_bind _ _).2 (wp_nextToken hs fun first s₁ hfirst => ?_)
  refine (wp_bind _ _).2 (wp_selectColumns n _ hfirst fun obj from' s₂ hfrom => ?_)
  refine (wp_bind _ _).2 (wp_checkWords fun b hb => ?_)
  refine (wp_bind _ _).2 (wp_require fun hword => ?_)
  have hready : Ready s₂ := by
    apply hfrom.ready
    intro hend
    have hlen := hb hword
    rw [hfrom.text hend] at hlen
    cases hlen
  refine (wp_bind _ _).2 (wp_nextToken hready fun name s₃ hname => ?_)
  refine (wp_bind _ _).2 (wp_require fun h1 => ?_)
  refine (wp_bind _ _).2 (wp_nextToken (hname.ready_of h1 (by decide)) fun t s₄ hgot => ?_)
  exact wp_whereClause n _ hgot h

/-- `Update` asks for no token after `END`. -/
theorem wp_update (n : ℕ) (hs : Ready s) (h : ∀ j s', Q j s') :
    wp handler (update n) Q NotRefused s := by
  unfold update
  refine (wp_bind _ _).2 (wp_nextToken hs fun name s₁ hname => ?_)
  refine (wp_bind _ _).2 (wp_require fun h1 => ?_)
  refine (wp_bind _ _).2 (wp_nextToken (hname.ready_of h1 (by decide)) fun set s₂ hset => ?_)
  refine (wp_bind _ _).2 (wp_require fun h2 => ?_)
  refine (wp_bind _ _).2 (wp_checkWords fun b _ => ?_)
  refine (wp_bind _ _).2 (wp_require fun _ => ?_)
  refine (wp_bind _ _).2
    (wp_pairsLoop _ (fun obj t s' hgot => ?_) n _ s₂ (hset.ready_of h2 (by decide)))
  exact wp_whereClause n _ hgot h

/-- `Delete` asks for no token after `END`. -/
theorem wp_delete (n : ℕ) (hs : Ready s) (h : ∀ j s', Q j s') :
    wp handler (delete n) Q NotRefused s := by
  unfold delete
  refine (wp_bind _ _).2 (wp_nextToken hs fun from' s₁ hfrom => ?_)
  refine (wp_bind _ _).2 (wp_require fun h1 => ?_)
  refine (wp_bind _ _).2 (wp_checkWords fun b _ => ?_)
  refine (wp_bind _ _).2 (wp_require fun _ => ?_)
  refine (wp_bind _ _).2 (wp_nextToken (hfrom.ready_of h1 (by decide)) fun name s₂ hname => ?_)
  refine (wp_bind _ _).2 (wp_require fun h2 => ?_)
  refine (wp_bind _ _).2 (wp_nextToken (hname.ready_of h2 (by decide)) fun t s₃ hgot => ?_)
  exact wp_whereClause n _ hgot h

/-- The table of the commands: the one whose word is met runs. -/
theorem wp_dispatch (value : Str) (hs : Ready s) :
    ∀ commands : List (Str × Parse Json),
    (∀ command ∈ commands, ∀ s', Ready s' → wp handler command.2 Q NotRefused s') →
      wp handler (dispatch value commands) Q NotRefused s := by
  intro commands
  induction commands with
  | nil =>
    intro _
    exact wp_object
  | cons command commands ih =>
    intro hall
    obtain ⟨hfirst, hrest⟩ := List.forall_mem_cons.1 hall
    unfold dispatch
    refine (wp_bind _ _).2 (wp_checkWords fun b _ => ?_)
    split
    · exact hfirst s hs
    · exact ih hrest

/-- **The parser asks for nothing else.** -/
theorem wp_serialize (n : ℕ) (hs : Ready s) (h : ∀ j s', Q j s') :
    wp handler (serialize n) Q NotRefused s := by
  unfold serialize
  refine (wp_bind _ _).2 (wp_nextToken hs fun command s₁ hcommand => ?_)
  refine (wp_bind _ _).2 (wp_require fun h1 => ?_)
  refine (wp_bind _ _).2 (wp_require fun _ => ?_)
  refine wp_dispatch _ (hcommand.ready_of h1 (by decide)) _ ?_
  unfold commands
  simp only [List.forall_mem_cons]
  refine ⟨?_, ?_, ?_, ?_, ?_, ?_⟩
  · exact fun s' hs' => wp_create n hs' h
  · exact fun s' hs' => wp_insert n hs' h
  · exact fun s' hs' => wp_select n hs' h
  · exact fun s' hs' => wp_update n hs' h
  · exact fun s' hs' => wp_delete n hs' h
  · exact fun _ hnil => nomatch hnil

end Asking

/-- Every request of a run is permitted, and the run is that of the guarded handler. -/
theorem serialize_asked (n : ℕ) (input : Str) :
    Always logging Asked (serialize n) (⟨input, 0⟩, []) ∧
      (serialize n).run logging (⟨input, 0⟩, []) =
        (serialize n).run Asking.handler (⟨input, 0⟩, []) := by
  have hready : Asking.Ready (⟨input, 0⟩, []) := ⟨Nat.zero_le _, fun _ hnil => nomatch hnil⟩
  apply always_of_guard
  intro s' hrun
  exact wp_error (Asking.wp_serialize n hready fun _ _ => trivial) hrun rfl

end Parser

end ToySQL
