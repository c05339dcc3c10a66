import ToySQL.Proof.Rendering
import ToySQL.Spec.Writing

/-!
# Statements and their texts

* `parse_text_inj`: a statement in any layout parses to its object, and two statements are told
  apart by what they parse to.
* `parse_normal`: an input that parses to more than the empty object parses as a statement
  does, in whatever layout that is written.
-/

namespace ToySQL

variable {α : Type} {stmt stmt' : Statement} {ts : List Token}

/-! ## The symbols of a statement are its grammar -/

theorem wordSymbol_token (w : Str) : (wordSymbol w).token = ⟨.Word, w⟩ := by
  simp [wordSymbol, Symbol.token, List.takeWhile_append_dropWhile]

/-- A value is written as a word or quoted. -/
theorem valueSymbol_value (v : Str) :
    (valueSymbol v).token.Value ∧ (valueSymbol v).token.value = v := by
  unfold valueSymbol
  split_ifs
  · exact ⟨Or.inl rfl, rfl⟩
  · exact ⟨Or.inr rfl, rfl⟩

theorem keyword_token (word : String) :
    (keyword word).token.type = .Word ∧ (keyword word).token.value = str word := by
  rw [keyword, wordSymbol_token]
  exact ⟨rfl, rfl⟩

/-- Items between commas are a comma list of their tokens. -/
theorem commaList_symbols {item : α → List Symbol} {I : List Token → α → Prop} :
    ∀ {as : List α}, as ≠ [] →
    (∀ a ∈ as, I ((item a).map Symbol.token) a) →
      CommaList I ((commaSymbols item as).map Symbol.token) as
  | [], hne, _ => absurd rfl hne
  | [a], _, h => .one (h a List.mem_cons_self)
  | a :: b :: rest, _, h => by
    have hrest := commaList_symbols (List.cons_ne_nil b rest) fun x hx =>
      h x (List.mem_cons_of_mem a hx)
    rw [commaSymbols, List.map_append, List.map_cons]
    exact .cons (h a List.mem_cons_self) rfl hrest

/-- A pair is written as the grammar has it. -/
theorem pairItem_symbols (p : Str × Str) : PairItem ((pairSymbols p).map Symbol.token) p := by
  have hpair : PairItem [(wordSymbol p.1).token, Symbol.equal.token, (valueSymbol p.2).token]
      ((wordSymbol p.1).token.value, (valueSymbol p.2).token.value) := by
    apply PairItem.mk _ rfl (valueSymbol_value p.2).1
    rw [wordSymbol_token]
  rw [wordSymbol_token, (valueSymbol_value p.2).2] at hpair
  rw [pairSymbols, List.map_cons, List.map_cons, List.map_singleton, wordSymbol_token]
  exact hpair

/-- The conditions are written as the grammar has them. -/
theorem whereClause_symbols (wheres : List (Str × Str)) :
    WhereClause ((whereSymbols wheres).map Symbol.token) wheres := by
  unfold whereSymbols
  split_ifs with hw
  · subst hw
    exact .absent
  · rw [List.map_cons]
    apply WhereClause.present ⟨(keyword_token "WHERE").1, _⟩
    · exact commaList_symbols hw fun p _ => pairItem_symbols p
    · rw [Token.text, (keyword_token "WHERE").2]
      decide

/-- The keyword `word`, which is in upper case. -/
theorem keyword_upper_token {word : String} (h : (str word).map upper = str word) :
    (keyword word).token.Keyword word := by
  refine ⟨(keyword_token word).1, ?_⟩
  rw [Token.text, (keyword_token word).2, h]

/-- A column is written as the grammar has it. -/
theorem columnItem_symbols {p : Str × Str} (hp : p.2 = str "INT" ∨ p.2 = str "TEXT") :
    ColumnItem ((columnSymbols p).map Symbol.token) p := by
  obtain ⟨w, type⟩ := p
  have hitem : ∀ type ∈ ["INT", "TEXT"], (str type).map upper = str type →
      ColumnItem [(wordSymbol w).token, (keyword type).token] ((wordSymbol w).token.value,
        str type) := by
    intro type htype hup
    apply ColumnItem.mk _ htype (keyword_upper_token hup)
    rw [wordSymbol_token]
  rw [wordSymbol_token] at hitem
  rw [columnSymbols, List.map_cons, List.map_singleton, wordSymbol_token]
  rcases hp with rfl | rfl
  · exact hitem "INT" (by simp) (by decide)
  · exact hitem "TEXT" (by simp) (by decide)

/-- **The symbols of a statement are the statement** to the grammar. -/
theorem grammar_symbols (h : stmt.Writable) : Grammar (stmt.symbols.map Symbol.token) stmt := by
  have hword : ∀ w, (wordSymbol w).token.type = .Word ∧ (wordSymbol w).token.value = w := by
    intro w
    rw [wordSymbol_token]
    exact ⟨rfl, rfl⟩
  have hkey : ∀ word, (str word).map upper = str word → (keyword word).token.Keyword word :=
    fun word => keyword_upper_token
  have hopen : Symbol.openBracket.token.type = .OpenBracket := rfl
  have hclose : Symbol.closeBracket.token.type = .CloseBracket := rfl
  -- clause by clause, in the order in which the symbols are written
  cases stmt with
  | create table columns =>
    obtain ⟨-, hne, hcolumns⟩ := h
    have hlist := commaList_symbols hne fun p hp => columnItem_symbols (hcolumns p hp).2
    have hg := Grammar.create (hkey "CREATE" (by decide)) (hkey "TABLE" (by decide)) (hword table).1
      hopen hlist hclose
    rw [(hword table).2] at hg
    simpa [Statement.symbols] using hg
  | insert table values =>
    obtain ⟨-, hne, -⟩ := h
    have hitem : ∀ v ∈ values, ValueItem ([valueSymbol v].map Symbol.token) v := by
      intro v _
      have hv := ValueItem.mk (valueSymbol_value v).1
      rw [(valueSymbol_value v).2] at hv
      exact hv
    have hg := Grammar.insert (hkey "INSERT" (by decide)) (hkey "INTO" (by decide)) (hword table).1
      (hkey "VALUES" (by decide))
      hopen (commaList_symbols hne hitem) hclose
    rw [(hword table).2] at hg
    simpa [Statement.symbols] using hg
  | select columns table wheres =>
    obtain ⟨hcolumns, -, -⟩ := h
    have hlist :
        SelectColumns ((if columns = [str "*"] then
          [Symbol.any] else commaSymbols (fun w => [wordSymbol w]) columns).map
        Symbol.token) columns := by
      split_ifs with hall
      · subst hall
        exact .all rfl
      · apply SelectColumns.some
        apply commaList_symbols (hcolumns.resolve_left hall).1
        intro w _
        have hw := WordItem.mk (hword w).1
        rw [(hword w).2] at hw
        exact hw
    have hg := SelectForm.mk (hkey "SELECT" (by decide)) hlist (hkey "FROM" (by decide))
      (hword table).1 (whereClause_symbols wheres)
    rw [(hword table).2] at hg
    apply Grammar.select
    simpa [Statement.symbols] using hg
  | update table values wheres =>
    obtain ⟨-, hne, -⟩ := h
    have hlist := commaList_symbols hne fun p _ => pairItem_symbols p
    have hg := Grammar.update (hkey "UPDATE" (by decide)) (hword table).1 (hkey "SET" (by decide))
      hlist (whereClause_symbols wheres)
    rw [(hword table).2] at hg
    simpa [Statement.symbols] using hg
  | delete table wheres =>
    have hg := Grammar.delete (hkey "DELETE" (by decide)) (hkey "FROM" (by decide)) (hword table).1
      (whereClause_symbols wheres)
    rw [(hword table).2] at hg
    simpa [Statement.symbols] using hg

/-- Any layout of a statement parses to its object. -/
theorem Rendering.Of.parse {r : Rendering} (hr : r.Of stmt) (h : stmt.Writable) :
    Parser.parse r.text = .ok stmt.json := by
  have htokens : r.tokens = stmt.symbols.map Symbol.token := by
    rw [← hr, List.map_map]
    rfl
  have hg := grammar_symbols h
  rw [← htokens, ← r.tokensOf_text] at hg
  rw [Parser.parse_read, readStatement_complete (Nat.lt_succ_of_le (length_tokensOf r.text)) hg]
  rfl

/-! ## A layout for every statement -/

/-- A text without quotes can be written as a value. -/
theorem isValue_of_not_mem {v : Str} (h : '"'.toUInt8 ∉ v) : IsValue v := by
  unfold IsValue valueSymbol
  split_ifs with hv
  · exact hv
  · exact h

/-- The symbols of a list are its commas and those of its items. By induction on the list. -/
theorem mem_commaSymbols {item : α → List Symbol} {x : Symbol} :
    ∀ {as : List α}, x ∈ commaSymbols item as →
    x = .comma ∨ ∃ a ∈ as, x ∈ item a
  | [], h => absurd h List.not_mem_nil
  | [a], h => Or.inr ⟨a, List.mem_cons_self, h⟩
  | a :: b :: rest, h => by
    rw [commaSymbols, List.mem_append, List.mem_cons] at h
    rcases h with h | rfl | h
    · exact Or.inr ⟨a, List.mem_cons_self, h⟩
    · exact Or.inl rfl
    · rcases mem_commaSymbols h with h | ⟨c, hc, hx⟩
      · exact Or.inl h
      · exact Or.inr ⟨c, List.mem_cons_of_mem a hc, hx⟩

theorem wellFormed_comma {item : α → List Symbol} {as : List α}
    (h : ∀ a ∈ as, ∀ x ∈ item a, x.WellFormed) :
    ∀ x ∈ commaSymbols item as, x.WellFormed := by
  intro x hx
  rcases mem_commaSymbols hx with rfl | ⟨a, ha, hx⟩
  · trivial
  · exact h a ha x hx

theorem wellFormed_pairs {pairs : List (Str × Str)} (h : Statement.WritablePairs pairs) :
    ∀ x ∈ commaSymbols pairSymbols pairs, x.WellFormed := by
  apply wellFormed_comma
  intro p hp x hx
  simp only [pairSymbols, List.mem_cons, List.not_mem_nil, or_false] at hx
  rcases hx with rfl | rfl | rfl
  · exact (h p hp).1
  · trivial
  · exact (h p hp).2

theorem wellFormed_keyword : ∀ word ∈ ["CREATE", "TABLE", "INSERT", "INTO", "VALUES", "SELECT",
    "FROM", "UPDATE", "SET", "DELETE",
    "WHERE", "INT", "TEXT"], (keyword word).WellFormed := by
  decide +kernel

theorem wellFormed_where {wheres : List (Str × Str)} (h : Statement.WritablePairs wheres) :
    ∀ x ∈ whereSymbols wheres, x.WellFormed := by
  unfold whereSymbols
  split_ifs
  · exact fun x hx => absurd hx List.not_mem_nil
  · exact List.forall_mem_cons.2 ⟨wellFormed_keyword "WHERE" (by simp), wellFormed_pairs h⟩

/-- The symbols of a writable statement are well formed. -/
theorem wellFormed_symbols (h : stmt.Writable) : ∀ x ∈ stmt.symbols, x.WellFormed := by
  have hkey := wellFormed_keyword
  simp only [List.forall_mem_cons, List.not_mem_nil, false_imp_iff, implies_true, and_true] at hkey
  obtain ⟨hcreate, htable, hinsert, hinto, hvalues, hselect, hfrom, hupdate, hset, hdelete, -⟩ :=
    hkey
  -- names are words, keywords are words too, and the values are quoted if need be
  cases stmt with
  | create table columns =>
    obtain ⟨hw, -, hcolumns⟩ := h
    have hlist : ∀ x ∈ commaSymbols columnSymbols columns, x.WellFormed := by
      apply wellFormed_comma
      intro p hp
      refine List.forall_mem_cons.2 ⟨(hcolumns p hp).1, List.forall_mem_singleton.2 ?_⟩
      rcases (hcolumns p hp).2 with htype | htype
      · rw [htype]
        exact wellFormed_keyword "INT" (by simp)
      · rw [htype]
        exact wellFormed_keyword "TEXT" (by simp)
    simp only [Statement.symbols, List.cons_append, List.forall_mem_cons, List.forall_mem_append]
    exact ⟨hcreate, htable, hw, trivial, hlist, trivial, fun x hx => absurd hx List.not_mem_nil⟩
  | insert table values =>
    obtain ⟨hw, -, hwritable⟩ := h
    have hlist : ∀ x ∈ commaSymbols (fun v => [valueSymbol v]) values, x.WellFormed :=
      wellFormed_comma fun v hv => List.forall_mem_singleton.2 (hwritable v hv)
    simp only [Statement.symbols, List.cons_append, List.forall_mem_cons, List.forall_mem_append]
    exact ⟨hinsert, hinto, hw, hvalues, trivial, hlist, trivial,
      fun x hx => absurd hx List.not_mem_nil⟩
  | select columns table wheres =>
    obtain ⟨hcolumns, hw, hwheres⟩ := h
    have hlist : ∀ x ∈ if columns = [str "*"] then
        [Symbol.any] else commaSymbols (fun w => [wordSymbol w]) columns,
        x.WellFormed := by
      split_ifs with hall
      · exact List.forall_mem_singleton.2 trivial
      · exact wellFormed_comma fun w hw =>
          List.forall_mem_singleton.2 ((hcolumns.resolve_left hall).2 w hw)
    simp only [Statement.symbols, List.cons_append, List.forall_mem_cons, List.forall_mem_append]
    exact ⟨hselect, hlist, hfrom, hw, wellFormed_where hwheres⟩
  | update table values wheres =>
    obtain ⟨hw, -, hpairs, hwheres⟩ := h
    simp only [Statement.symbols, List.cons_append, List.forall_mem_cons, List.forall_mem_append]
    exact ⟨hupdate, hw, hset, wellFormed_pairs hpairs, wellFormed_where hwheres⟩
  | delete table wheres =>
    simp only [Statement.symbols, List.forall_mem_cons]
    exact ⟨hdelete, hfrom, h.1, wellFormed_where h.2⟩

/-- A space before each symbol. -/
def spaced (symbols : List Symbol) (h : ∀ x ∈ symbols, x.WellFormed) : Rendering where
  items := symbols.map fun x => (str " ", x)
  last := []
  wellFormed := by
    intro item hitem
    obtain ⟨x, hx, rfl⟩ := List.mem_map.1 hitem
    exact h x hx
  blank := by
    intro item hitem
    obtain ⟨x, -, rfl⟩ := List.mem_map.1 hitem
    exact (by decide +kernel : ∀ c ∈ str " ", isSpace c)
  blank_last := fun c hc => absurd hc List.not_mem_nil
  apart := by
    rw [List.isChain_map, List.isChain_iff_getElem]
    intro i _ hblank
    exact absurd hblank (by decide : str " " ≠ [])

theorem exists_rendering (h : stmt.Writable) : ∃ r : Rendering, r.Of stmt := by
  refine ⟨spaced stmt.symbols (wellFormed_symbols h), ?_⟩
  rw [Rendering.Of, spaced, List.map_map]
  exact List.map_id _

/-! ## The object of a statement -/

theorem pair_injective : Function.Injective Json.pair := by
  rintro ⟨a, b⟩ ⟨a', b'⟩ h
  simpa [Json.pair] using h

theorem str_injective : Function.Injective Json.str := fun a b h => by simpa using h

theorem strs_inj {a b : List Str} : a.map Json.str = b.map Json.str ↔
    a = b := (List.map_injective_iff.2 str_injective).eq_iff

theorem pairs_inj {a b : List (Str × Str)} : a.map Json.pair = b.map Json.pair ↔ a = b :=
  (List.map_injective_iff.2 pair_injective).eq_iff

/-- The object has all of the statement. -/
theorem json_injective : Function.Injective Statement.json := by
  intro stmt stmt' h
  have hop : str "insert" ≠ str "delete" := by decide
  cases stmt with
  | create table columns =>
    cases stmt' <;> simp [Statement.json, pairs_inj] at h ⊢
    exact ⟨h.2, h.1⟩
  | insert table values =>
    cases stmt' <;> simp [Statement.json, strs_inj] at h ⊢
    · exact h
    · exact hop h.1
  | select columns table wheres =>
    cases stmt' <;> simp [Statement.json, strs_inj, pairs_inj] at h ⊢
    exact h
  | update table values wheres =>
    cases stmt' <;> simp [Statement.json, pairs_inj] at h ⊢
    exact h
  | delete table wheres =>
    cases stmt' <;> simp [Statement.json, pairs_inj] at h ⊢
    · exact hop h.1.symm
    · exact h

/-- **Statements and their texts.** A statement parses to its object in any layout, and two
statements parse to the same only if they are the same. -/
theorem parse_text_inj {r r' : Rendering} (h : stmt.Writable) (h' : stmt'.Writable) (hr : r.Of stmt)
    (hr' : r'.Of stmt') :
    Parser.parse r.text = .ok stmt.json ∧ (Parser.parse r.text = Parser.parse r'.text ↔
      stmt = stmt') := by
  refine ⟨hr.parse h, ?_⟩
  rw [hr.parse h, hr'.parse h']
  constructor
  · intro heq
    exact json_injective (Except.ok.inj heq)
  · rintro rfl
    rfl

/-- The number 12 and the literal of a quoted text. -/
theorem parse_text_inj_insert : ∃ r r' : Rendering,
    Parser.parse r.text = .ok (Statement.insert (str "t") [str "12"]).json ∧
      (Parser.parse r.text = Parser.parse r'.text ↔
        Statement.insert (str "t") [str "12"] = Statement.insert (str "t") [str "a, b"]) := by
  have hword : IsWord (str "t") := (by decide +kernel : (wordSymbol (str "t")).WellFormed)
  have hvalue : ∀ {v : Str}, '"'.toUInt8 ∉ v → (Statement.insert (str "t") [v]).Writable := by
    intro v hv
    refine ⟨hword, List.cons_ne_nil _ _, fun v' hv' => ?_⟩
    rw [List.mem_singleton.1 hv']
    exact isValue_of_not_mem hv
  have h := hvalue (by decide +kernel : '"'.toUInt8 ∉ str "12")
  have h' := hvalue (by decide +kernel : '"'.toUInt8 ∉ str "a, b")
  obtain ⟨r, hr⟩ := exists_rendering h
  obtain ⟨r', hr'⟩ := exists_rendering h'
  exact ⟨r, r', parse_text_inj h h' hr hr'⟩

/-! ## What is accepted -/

/-- The value of a word is one, and a value has no quote. -/
def Token.Legible (t : Token) : Prop := (t.type = .Word → IsWord t.value) ∧
    (t.Value → IsValue t.value)

/-- Letters and then digits are a word. -/
theorem isWord_append {letters digits : Str} (hne : letters ≠ []) (hl : ∀ c ∈ letters, isAlpha c)
    (hd : ∀ c ∈ digits, isDigit c) :
    IsWord (letters ++ digits) := by
  have hstop : ∀ c ∈ digits.head?, isAlpha c = false := by
    intro c hc
    exact (not_alpha_of_digit c (hd c (List.mem_of_mem_head? hc))).1
  rw [IsWord, wordSymbol, takeWhile_append hl hstop, dropWhile_append hl hstop]
  exact ⟨hne, hl, hd⟩

theorem legible_lexFrom (c : UInt8) (s : Str) : (lexFrom c s).1.Legible := by
  unfold lexFrom
  split_ifs with hd ha hq
  · -- a number
    refine ⟨fun hword => (by cases hword), fun _ => isValue_of_not_mem fun hmem => ?_⟩
    have hdigit := List.mem_takeWhile_imp hmem
    exact absurd hdigit (by decide)
  · refine ⟨fun _ => ?_, fun hvalue => (by rcases hvalue with hvalue | hvalue <;> cases hvalue)⟩
    apply isWord_append
    · rw [List.takeWhile_cons, if_pos ha]
      exact List.cons_ne_nil _ _
    · exact fun x hx => List.mem_takeWhile_imp hx
    · exact fun x hx => List.mem_takeWhile_imp hx
  · unfold lexLiteral
    split_ifs
    · exact ⟨fun hword => (by cases hword),
        fun hvalue => (by rcases hvalue with hvalue | hvalue <;> cases hvalue)⟩
    · exact ⟨fun hword => (by cases hword), fun _ => isValue_of_not_mem (delim_takeWhile s _)⟩
  · unfold singleToken
    split_ifs
    all_goals exact ⟨fun hword => (by cases hword),
      fun hvalue => (by rcases hvalue with hvalue | hvalue <;> cases hvalue)⟩

/-- A token of the lexer can be written again. -/
theorem legible_lexOne (s : Str) : (lexOne s).1.Legible := by
  unfold lexOne
  rcases s.dropWhile isSpace with _ | ⟨c, s'⟩
  · exact ⟨fun hword => (by cases hword),
      fun hvalue => (by rcases hvalue with hvalue | hvalue <;> cases hvalue)⟩
  · exact legible_lexFrom c s'

/-- The tokens of an input can be written again. -/
theorem legible_tokensOf (s : Str) : ∀ t ∈ tokensOf s, t.Legible := by
  induction s using tokensOf.induct with
  | case1 s h => simp [tokensOf_end h]
  | case2 s h ih =>
    rw [tokensOf_cons h]
    exact List.forall_mem_cons.2 ⟨legible_lexOne s, ih⟩

/-- The items of a comma list. -/
theorem forall_commaList {I : List Token → α → Prop} {P : α → Prop} {as : List α}
    (h : CommaList I ts as)
    (hts : ∀ t ∈ ts, t.Legible) (hI : ∀ ts a, I ts a → (∀ t ∈ ts, t.Legible) → P a) :
    as ≠ [] ∧ ∀ a ∈ as, P a := by
  induction h with
  | one hitem => exact ⟨List.cons_ne_nil _ _, List.forall_mem_singleton.2 (hI _ _ hitem hts)⟩
  | cons hitem _ _ ih =>
    obtain ⟨hfront, hrest⟩ := List.forall_mem_append.1 hts
    refine ⟨List.cons_ne_nil _ _, List.forall_mem_cons.2 ⟨hI _ _ hitem hfront, ?_⟩⟩
    exact (ih fun t ht => hrest t (List.mem_cons_of_mem _ ht)).2

/-- Pairs read from such tokens can be written. -/
theorem pairs_writable {pairs : List (Str × Str)} (h : CommaList PairItem ts pairs)
    (hts : ∀ t ∈ ts, t.Legible) :
    pairs ≠ [] ∧ Statement.WritablePairs pairs := by
  apply forall_commaList h hts
  rintro _ _ ⟨hw, -, hv⟩ hitem
  exact ⟨(hitem _ (by simp)).1 hw, (hitem _ (by simp)).2 hv⟩

/-- Conditions read from such tokens can be written. -/
theorem where_writable {wheres : List (Str × Str)} (h : WhereClause ts wheres)
    (hts : ∀ t ∈ ts, t.Legible) :
    Statement.WritablePairs wheres := by
  cases h with
  | absent => exact fun p hp => absurd hp List.not_mem_nil
  | present _ hlist => exact (pairs_writable hlist fun t ht => hts t (List.mem_cons_of_mem _ ht)).2

theorem select_writable {isFrom : Token → Prop} (h : SelectForm isFrom ts stmt)
    (hts : ∀ t ∈ ts, t.Legible) : stmt.Writable := by
  obtain ⟨-, hcols, -, hw, hcond⟩ := h
  simp only [List.cons_append, List.forall_mem_cons, List.forall_mem_append] at hts
  obtain ⟨-, hlist, -, hword, hwhere⟩ := hts
  refine ⟨?_, hword.1 hw, where_writable hcond hwhere⟩
  cases hcols with
  | all _ => exact Or.inl rfl
  | some hcols =>
    right
    apply forall_commaList hcols hlist
    rintro _ _ ⟨hw⟩ hitem
    exact (hitem _ (by simp)).1 hw

/-- A statement read from such tokens can be written. -/
theorem grammar_writable (h : Grammar ts stmt) (hts : ∀ t ∈ ts, t.Legible) : stmt.Writable := by
  -- what is read as a name is a word, what is read as a value has no quote
  cases h with
  | create _ _ hw _ hcols _ =>
    simp only [List.cons_append, List.forall_mem_cons, List.forall_mem_append] at hts
    obtain ⟨-, -, hword, -, hlist, -⟩ := hts
    refine ⟨hword.1 hw, ?_⟩
    apply forall_commaList hcols hlist
    rintro _ _ ⟨hw, htype, -⟩ hitem
    refine ⟨(hitem _ (by simp)).1 hw, ?_⟩
    simp only [List.mem_cons, List.not_mem_nil, or_false] at htype
    rcases htype with rfl | rfl
    · exact Or.inl rfl
    · exact Or.inr rfl
  | insert _ _ hw _ _ hvals _ =>
    simp only [List.cons_append, List.forall_mem_cons, List.forall_mem_append] at hts
    obtain ⟨-, -, hword, -, -, hlist, -⟩ := hts
    refine ⟨hword.1 hw, ?_⟩
    apply forall_commaList hvals hlist
    rintro _ _ ⟨hv⟩ hitem
    exact (hitem _ (by simp)).2 hv
  | select h => exact select_writable h hts
  | update _ hw _ hsets hcond =>
    simp only [List.cons_append, List.forall_mem_cons, List.forall_mem_append] at hts
    obtain ⟨-, hword, -, hlist, hwhere⟩ := hts
    have hpairs := pairs_writable hsets hlist
    exact ⟨hword.1 hw, hpairs.1, hpairs.2, where_writable hcond hwhere⟩
  | delete _ _ hw hcond =>
    simp only [List.forall_mem_cons] at hts
    obtain ⟨-, -, hword, hwhere⟩ := hts
    exact ⟨hword.1 hw, where_writable hcond hwhere⟩

/-- **What is accepted.** An input parses to the empty object, or to the object of one
statement, which can be written, and which parses to the same in every layout. -/
theorem parse_normal (input : Str) : Parser.parse input = .ok .object ∨
    ∃! stmt : Statement, Parser.parse input = .ok stmt.json ∧ stmt.Writable ∧
      (∃ r : Rendering, r.Of stmt) ∧
      ∀ r : Rendering, r.Of stmt → Parser.parse r.text = Parser.parse input := by
  have hn := Nat.lt_succ_of_le (length_tokensOf input)
  rw [Parser.parse_read]
  rcases hr : readStatement (input.length + 1) (tokensOf input) with _ | stmt
  · exact Or.inl rfl
  · right
    have hwritable : stmt.Writable := by
      rcases readStatement_sound hn hr with hg | hs
      · exact grammar_writable hg (legible_tokensOf input)
      · exact select_writable hs (legible_tokensOf input)
    refine ⟨stmt, ⟨rfl, hwritable, exists_rendering hwritable, fun r hof => hof.parse hwritable⟩,
      ?_⟩
    rintro stmt' ⟨hjson, -⟩
    exact (json_injective (Except.ok.inj hjson)).symm

end ToySQL
