import ToySQL.Proof.Parsing
import ToySQL.Spec.Rendering

/-!
# The lexer undoes a rendering

`Symbol.lexOne_text`: after whitespace one call reads one symbol and leaves what follows,
if what follows does not go on with a letter or a digit where the symbol needs that.
`Rendering.tokensOf_text`: the tokens of the text of a rendering are its symbols.
-/

namespace ToySQL

/-- What follows does not lengthen a word or a number. -/
def Stops (s : Str) : Prop := ∀ c ∈ s.head?, isAlpha c = false ∧ isDigit c = false

section

variable {b : UInt8 → Bool} {front s : Str}

/-- A scan takes the part in front when what follows stops it. -/
theorem takeWhile_append (hf : ∀ c ∈ front, b c) (hs : ∀ c ∈ s.head?, b c = false) :
    (front ++ s).takeWhile b = front := by
  rw [List.takeWhile_append_of_pos hf]
  cases s with
  | nil => simp
  | cons c s => simp [hs c rfl]

/-- A scan leaves what follows the part in front. -/
theorem dropWhile_append (hf : ∀ c ∈ front, b c) (hs : ∀ c ∈ s.head?, b c = false) :
    (front ++ s).dropWhile b = s := by
  rw [List.dropWhile_append_of_pos hf]
  cases s with
  | nil => rfl
  | cons c s => simp [hs c rfl]

end

/-! The classes of a byte exclude each other. -/

theorem not_alpha_of_digit (c : UInt8) :
    isDigit c = true → isAlpha c = false ∧ isSpace c = false := by
  revert c
  apply forall_byte
  decide +kernel

theorem not_digit_of_alpha (c : UInt8) :
    isAlpha c = true → isDigit c = false ∧ isSpace c = false := by
  revert c
  apply forall_byte
  decide +kernel

theorem stops_of_space (c : UInt8) : isSpace c = true → isAlpha c = false ∧ isDigit c = false := by
  revert c
  apply forall_byte
  decide +kernel

namespace Symbol

variable {x : Symbol} {s : Str}

/-- The text of a symbol starts with no whitespace. -/
theorem text_head (hx : x.WellFormed) : ∃ c text, x.text = c :: text ∧ isSpace c = false := by
  cases x with
  | word letters digits =>
    obtain ⟨hne, hl, -⟩ := hx
    obtain ⟨c, letters, rfl⟩ := List.exists_cons_of_ne_nil hne
    exact ⟨c, letters ++ digits, rfl, (not_digit_of_alpha c (hl c (by simp))).2⟩
  | number digits =>
    obtain ⟨hne, hd⟩ := hx
    obtain ⟨c, digits, rfl⟩ := List.exists_cons_of_ne_nil hne
    exact ⟨c, digits, rfl, (not_alpha_of_digit c (hd c (by simp))).2⟩
  | literal text => exact ⟨_, _, rfl, by decide⟩
  | openBracket => exact ⟨_, _, rfl, by decide⟩
  | closeBracket => exact ⟨_, _, rfl, by decide⟩
  | any => exact ⟨_, _, rfl, by decide⟩
  | comma => exact ⟨_, _, rfl, by decide⟩
  | equal => exact ⟨_, _, rfl, by decide⟩

/-- Punctuation and literals end what stands before them. -/
theorem stops_text (hx : x.Delimited) (s : Str) : Stops (x.text ++ s) := by
  cases x with
  | word letters digits => exact hx.elim
  | number digits => exact hx.elim
  | literal text => intro c hc; obtain rfl := Option.mem_some_iff.1 hc; decide
  | openBracket => intro c hc; obtain rfl := Option.mem_some_iff.1 hc; decide
  | closeBracket => intro c hc; obtain rfl := Option.mem_some_iff.1 hc; decide
  | any => intro c hc; obtain rfl := Option.mem_some_iff.1 hc; decide
  | comma => intro c hc; obtain rfl := Option.mem_some_iff.1 hc; decide
  | equal => intro c hc; obtain rfl := Option.mem_some_iff.1 hc; decide

/-- A word is read up to where it stops. -/
theorem lexWord_text {letters digits : Str} (hl : ∀ c ∈ letters, isAlpha c)
    (hd : ∀ c ∈ digits, isDigit c)
    (hs : Stops s) : lexWord (letters ++ digits ++ s) = (⟨.Word, letters ++ digits⟩, s) := by
  have hstop : ∀ c ∈ (digits ++ s).head?, isAlpha c = false := by
    cases digits with
    | nil => exact fun c hc => (hs c hc).1
    | cons d digits =>
      intro c hc
      obtain rfl := Option.mem_some_iff.1 hc
      exact (not_alpha_of_digit d (hd d (by simp))).1
  unfold lexWord
  rw [List.append_assoc, takeWhile_append hl hstop, dropWhile_append hl hstop,
    takeWhile_append hd fun c hc => (hs c hc).2, dropWhile_append hd fun c hc => (hs c hc).2]

/-- A text without quotes is read up to its closing quote. -/
theorem lexLiteral_text {text : Str} (ht : '"'.toUInt8 ∉ text) :
    lexLiteral (text ++ '"'.toUInt8 :: s) = (⟨.Literal, text⟩, s) := by
  have hf : ∀ c ∈ text, decide (c ≠ '"'.toUInt8) = true := by
    intro c hc
    rw [decide_eq_true_eq]
    rintro rfl
    exact ht hc
  have hstop : ∀ c ∈ ('"'.toUInt8 :: s).head?, decide (c ≠ '"'.toUInt8) = false := by simp
  unfold lexLiteral
  rw [takeWhile_append hf hstop, dropWhile_append hf hstop, if_neg (List.cons_ne_nil _ _)]
  rfl

/-- The symbol at the start of the input. -/
theorem lexFrom_text {c : UInt8} {text : Str} (hx : x.WellFormed) (ht : x.text = c :: text)
    (hs : x.Delimited ∨ Stops s) : lexFrom c (text ++ s) = (x.token, s) := by
  have hcons : c :: (text ++ s) = x.text ++ s := by rw [ht]; rfl
  unfold lexFrom
  -- the first character decides which token is read
  cases x with
  | word letters digits =>
    obtain ⟨hne, hl, hd⟩ := hx
    obtain ⟨d, letters, rfl⟩ := List.exists_cons_of_ne_nil hne
    obtain ⟨rfl, -⟩ := List.cons.inj ht
    have ha := hl d (by simp)
    rw [if_neg (by simp [(not_digit_of_alpha d ha).1]), if_pos ha, hcons]
    exact lexWord_text hl hd (hs.resolve_left id)
  | number digits =>
    obtain ⟨hne, hd⟩ := hx
    have hstop : ∀ c ∈ s.head?, isDigit c = false := fun c hc => (hs.resolve_left id c hc).2
    have hc : isDigit c := hd c (by rw [show digits = c :: text from ht]; simp)
    rw [if_pos hc, hcons]
    exact Prod.ext (congrArg (Token.mk .Number) (takeWhile_append hd hstop))
      (dropWhile_append hd hstop)
  | literal body =>
    obtain ⟨rfl, rfl⟩ := List.cons.inj ht
    have happ : body.append ['"'.toUInt8] ++ s = body ++ '"'.toUInt8 :: s := List.append_assoc _ _ _
    rw [if_neg (by decide), if_neg (by decide), if_pos rfl, happ]
    exact lexLiteral_text hx
  | openBracket => obtain ⟨rfl, rfl⟩ := List.cons.inj ht; rfl
  | closeBracket => obtain ⟨rfl, rfl⟩ := List.cons.inj ht; rfl
  | any => obtain ⟨rfl, rfl⟩ := List.cons.inj ht; rfl
  | comma => obtain ⟨rfl, rfl⟩ := List.cons.inj ht; rfl
  | equal => obtain ⟨rfl, rfl⟩ := List.cons.inj ht; rfl

/-- **One call reads one symbol.** -/
theorem lexOne_text {blank : Str} (hb : ∀ c ∈ blank, isSpace c) (hx : x.WellFormed)
    (hs : x.Delimited ∨ Stops s) : lexOne (blank ++ (x.text ++ s)) = (x.token, s) := by
  obtain ⟨c, text, ht, hc⟩ := text_head hx
  have hdrop : (blank ++ (x.text ++ s)).dropWhile isSpace = c :: (text ++ s) := by
    rw [dropWhile_append hb]
    · rw [ht]; rfl
    · rw [ht]; simpa using hc
  unfold lexOne
  rw [hdrop]
  exact lexFrom_text hx ht hs

theorem token_type (x : Symbol) : x.token.type ≠ .END := by cases x <;> simp [token]

end Symbol

namespace Rendering

/-- What a rendering writes after a symbol does not lengthen it. -/
theorem stops_write {x : Symbol} {items : List (Str × Symbol)} {last : Str}
    (hblank : ∀ item ∈ items, ∀ c ∈ item.1, isSpace c) (hlast : ∀ c ∈ last, isSpace c)
    (hapart : ∀ item ∈ items.head?, item.1 = [] → x.Delimited ∨ item.2.Delimited) :
    x.Delimited ∨ Stops (write items last) := by
  have hspace : ∀ (s s' : Str), s ≠ [] → (∀ c ∈ s, isSpace c) → Stops (s ++ s') := by
    intro s s' hne hs c hc
    obtain ⟨d, s, rfl⟩ := List.exists_cons_of_ne_nil hne
    obtain rfl := Option.mem_some_iff.1 hc
    exact stops_of_space d (hs d (by simp))
  cases items with
  | nil =>
    by_cases hl : last = []
    · exact Or.inr (by rw [hl]; simp [write, Stops])
    · have := hspace last [] hl hlast
      rw [List.append_nil] at this
      exact Or.inr this
  | cons item items =>
    by_cases hb : item.1 = []
    · rcases hapart item rfl hb with h | h
      · exact Or.inl h
      · have := item.2.stops_text h (write items last)
        exact Or.inr (by simpa [write, hb] using this)
    · exact Or.inr (hspace item.1 _ hb (hblank item (by simp)))

/-- The tokens of a written list of symbols are those symbols, whatever the spaces between them. -/
theorem tokensOf_write (items : List (Str × Symbol)) {last : Str}
    (hlast : ∀ c ∈ last, isSpace c) :
    (∀ item ∈ items, item.2.WellFormed) → (∀ item ∈ items, ∀ c ∈ item.1, isSpace c) →
      items.IsChain (fun a b => b.1 = [] → a.2.Delimited ∨ b.2.Delimited) →
        tokensOf (write items last) = items.map fun item => item.2.token := by
  induction items with
  | nil =>
    intro _ _ _
    have hdrop : last.dropWhile isSpace = [] := List.dropWhile_eq_nil_iff.2 hlast
    apply tokensOf_end
    unfold write lexOne
    rw [List.foldr_nil, hdrop]
    rfl
  | cons item items ih =>
    intro hwf hblank hapart
    obtain ⟨hx, hwf⟩ := List.forall_mem_cons.1 hwf
    obtain ⟨hb, hblank⟩ := List.forall_mem_cons.1 hblank
    -- what follows a symbol stops its token
    have hstop := stops_write (x := item.2) hblank hlast fun b hb => by
      cases items with
      | nil => cases hb
      | cons d items =>
        obtain rfl := Option.mem_some_iff.1 hb
        exact (List.isChain_cons_cons.1 hapart).1
    have hone : lexOne (write (item :: items) last) = (item.2.token, write items last) :=
      Symbol.lexOne_text hb hx hstop
    rw [tokensOf_cons (by rw [hone]; exact item.2.token_type), hone,
      ih hwf hblank hapart.tail, List.map_cons]

/-- **The tokens of a rendering are its symbols.** -/
theorem tokensOf_text (r : Rendering) : tokensOf r.text = r.tokens :=
  tokensOf_write r.items r.blank_last r.wellFormed r.blank r.apart

end Rendering

end ToySQL
