import ToySQL.Proof.Lexing
import ToySQL.Proof.Readers

/-!
# The parser reads statements

Over a list of tokens each routine of the parser does what its reader does; the loops
are all instances of `wp_commaLoop`. `wp_serialize` is the whole parser, and `parse_read`
what it returns for an input.
-/

namespace ToySQL

open Program

/-! ## Letters -/

/-- What holds of the 256 byte values holds of every byte. -/
theorem forall_byte {p : UInt8 → Prop} (h : ∀ n < 256, p (UInt8.ofNat n)) (c : UInt8) : p c := by
  have := h c.toNat c.toNat_lt
  rwa [UInt8.ofNat_toNat] at this

/-- On letters `toupper` of the C locale is `upper`. -/
theorem toupper_eq (c : UInt8) :
    isAlpha c = true → cLocale (.toupper (schar c)) % 256 = (upper c).toNat := by
  revert c
  apply forall_byte
  decide +kernel

/-- What `upper` takes to a capital is a letter. -/
theorem isAlpha_of_upper (c : UInt8) : 65 ≤ upper c → upper c ≤ 90 → isAlpha c = true := by
  revert c
  apply forall_byte
  decide +kernel

theorem upper_self (c : UInt8) : 65 ≤ c → c ≤ 90 → isAlpha c = true ∧ upper c = c := by
  revert c
  apply forall_byte
  decide +kernel

/-! ## The routines -/

namespace Fields

/-- Several values pushed to one array. -/
def pushAll (key : Str) (values : List Json) (obj : Fields) : Fields :=
  values.foldl (fun obj value => obj.push key value) obj

theorem pushAll_here (key : Str) (values items : List Json) (fields : Fields) :
    pushAll key values ((key, .arr items) :: fields) = (key, .arr (items ++ values)) :: fields := by
  induction values generalizing items with
  | nil => simp [pushAll]
  | cons v values ih =>
    have hpush : push key v ((key, .arr items) :: fields) = (key, .arr (items ++ [v])) :: fields :=
      if_pos rfl
    unfold pushAll at ih ⊢
    rw [List.foldl_cons, hpush, ih, List.append_assoc, List.singleton_append]

theorem pushAll_there {key k : Str} (hk : k ≠ key) (w : Json) (values : List Json)
    (fields : Fields) :
    pushAll key values ((k, w) :: fields) = (k, w) :: pushAll key values fields := by
  induction values generalizing fields with
  | nil => rfl
  | cons v values ih =>
    have hpush : push key v ((k, w) :: fields) = (k, w) :: push key v fields := if_neg (Ne.symm hk)
    unfold pushAll at ih ⊢
    rw [List.foldl_cons, hpush, ih, List.foldl_cons]

end Fields

namespace Parser

/-- A condition on the fault alone. -/
def faults (G : Stop → Prop) : Stop → List Token → Prop := fun e _ => G e

@[simp] theorem faults_apply (G : Stop → Prop) (e : Stop) (ts : List Token) : faults G e ts =
    G e := rfl

variable {α β : Type} {Q : β → List Token → Prop} {G : Stop → Prop} {ts : List Token}

/-- Asking for a token takes the first of the list, or `END`. -/
theorem wp_nextToken {Q : Token → List Token → Prop} :
    wp listHandler nextToken Q (faults G) ts ↔ Q (ts.headD endToken) ts.tail := Iff.rfl

theorem isValue_iff {t : Token} : t.isValue = true ↔ t.Value := by
  simp [Token.isValue, Token.Value]

theorem wp_isalpha {c : ℤ} {Q : Bool → List Token → Prop} :
    wp listHandler (isalpha c) Q (faults G) ts ↔
      Q (cLocale (.isalpha c)) ts := Iff.rfl

theorem wp_toupper {c : ℤ} {Q : ℤ → List Token → Prop} :
    wp listHandler (toupper c) Q (faults G) ts ↔
      Q (cLocale (.toupper c)) ts := Iff.rfl

/-- A check that fails ends the command with the empty object. -/
theorem wp_require {ok : Bool} {Q : Unit → List Token → Prop} :
    wp listHandler (require ok) Q (faults G) ts ↔ if ok then Q () ts else G .object := by
  cases ok <;> exact Iff.rfl

/-- The loop of `check_words` compares letter by letter, whatever the case. -/
theorem wp_checkWordsLoop {w : Str} {Q : Bool → List Token → Prop} (hw : ∀ c ∈ w, 65 ≤ c ∧ c ≤ 90) :
    ∀ s : Str, s.length = w.length →
      (wp listHandler (checkWordsLoop s w) Q (faults G) ts ↔
        Q (decide (s.map upper = w)) ts) := by
  induction w with
  | nil =>
    intro s hs
    obtain rfl := List.length_eq_zero_iff.1 hs
    exact Iff.rfl
  | cons d w ih =>
    rintro (_ | ⟨c, s⟩) hs
    · cases hs
    obtain ⟨⟨hd1, hd2⟩, hw⟩ := List.forall_mem_cons.1 hw
    obtain ⟨hd, hdu⟩ := upper_self d hd1 hd2
    have hd' : cLocale (.isalpha (uchar d)) = true := hd
    have hstep := ih hw s (Nat.succ.inj hs)
    unfold checkWordsLoop
    simp only [wp_bind, wp_isalpha]
    -- a character that is no letter differs from every capital
    by_cases hc : isAlpha c
    · have hc' : cLocale (.isalpha (uchar c)) = true := hc
      simp only [hc', hd', Bool.not_true, Bool.false_eq_true, if_false, wp_bind, wp_isalpha,
        wp_toupper,
        toupper_eq c hc, toupper_eq d hd, hdu, ne_eq, Nat.cast_inj, UInt8.toNat_inj, List.map_cons,
        List.cons.injEq]
      by_cases he : upper c = d
      · simp only [he, not_true, if_false, true_and]
        exact hstep
      · simp only [he, not_false_eq_true, if_true, false_and, decide_false]
        exact Iff.rfl
    · have hc' : cLocale (.isalpha (uchar c)) = false := Bool.eq_false_iff.2 hc
      have hne : ¬ upper c = d := by
        rintro rfl
        exact hc (isAlpha_of_upper c hd1 hd2)
      simp only [hc', Bool.not_false, if_true, List.map_cons, List.cons.injEq, hne, false_and,
        decide_false]
      exact Iff.rfl

/-- **`checkWords`** compares with a word of upper-case letters. -/
theorem wp_checkWords {s w : Str} {Q : Bool → List Token → Prop} (hw : ∀ c ∈ w, 65 ≤ c ∧ c ≤ 90) :
    wp listHandler (checkWords s w) Q (faults G) ts ↔ Q (decide (s.map upper = w)) ts := by
  unfold checkWords
  by_cases hlen : s.length = w.length
  · rw [if_neg (not_not_intro hlen)]
    exact wp_checkWordsLoop hw s hlen
  · have hne : ¬ s.map upper = w := fun h => hlen (by rw [← h, List.length_map])
    rw [if_pos hlen, decide_eq_false hne]
    exact Iff.rfl

/-- **The loops over comma-separated items.** -/
theorem wp_commaLoop {L : ℕ → Fields → Parse β} (read : List Token → Option (α × List Token))
    (key : Str) (j : α → Json) (done : Fields → Token → Parse β)
    (hL : ∀ n obj ts, wp listHandler (L (n + 1) obj) Q (faults G) ts ↔
      (read ts).elim (G .object) fun r =>
        if (r.2.headD endToken).type = .Comma then
          wp listHandler (L n (obj.push key (j r.1))) Q (faults G) r.2.tail
        else wp listHandler (done (obj.push key (j r.1)) (r.2.headD endToken)) Q
          (faults G) r.2.tail)
    (hread : ∀ ts a rest, read ts = some (a, rest) → rest.length < ts.length) :
    ∀ n obj ts, ts.length < n →
      (wp listHandler (L n obj) Q (faults G) ts ↔
        (readList read n ts).elim (G .object) fun r =>
          wp listHandler (done (obj.pushAll key (r.1.map j)) (r.2.headD endToken)) Q (faults G)
            r.2.tail) := by
  intro n
  induction n with
  | zero => intro obj ts hts; omega
  | succ n ih =>
    intro obj ts hts
    rw [hL]
    unfold readList readSeparated
    -- after an item: the end, a comma, or what stops the list
    rcases hr : read ts with _ | ⟨a, _ | ⟨c, rest⟩⟩
    · rfl
    · exact Iff.rfl
    · have hlt := hread _ _ _ hr
      rw [List.length_cons] at hlt
      by_cases hc : c.type = .Comma
      · have hhead : ((c :: rest).headD endToken).type = .Comma := hc
        simp only [Option.elim_some, hhead, hc, if_true, List.tail_cons, Option.elim_map]
        rw [ih _ _ (by omega)]
        exact Iff.rfl
      · have hhead : ¬ ((c :: rest).headD endToken).type = .Comma := hc
        simp only [Option.elim_some, hhead, hc, if_false]
        exact Iff.rfl

/-- The keywords are words of upper-case letters. -/
theorem keyword_upper :
    ∀ w ∈ ["INT", "TEXT", "TABLE", "INTO", "VALUES", "FROM", "WHERE", "SET", "CREATE",
    "INSERT", "SELECT", "UPDATE", "DELETE"], ∀ c ∈ str w, 65 ≤ c ∧ c ≤ 90 := by decide +kernel

/-- The type of a column is `INT` or `TEXT`, in any case of letters. -/
theorem wp_columnType {s : Str} {Q : Str → List Token → Prop} :
    wp listHandler (columnType s) Q (faults G) ts ↔
      if s.map upper = str "INT" then Q (str "INT") ts
      else if s.map upper = str "TEXT" then Q (str "TEXT") ts
      else G .object := by
  unfold columnType
  simp only [wp_bind]
  rw [wp_checkWords (keyword_upper "INT" (by simp))]
  by_cases h1 : s.map upper = str "INT"
  · simp [h1]
  · simp only [h1, decide_false, Bool.false_eq_true, if_false, wp_bind]
    rw [wp_checkWords (keyword_upper "TEXT" (by simp))]
    by_cases h2 : s.map upper = str "TEXT"
    · simp [h2]
    · simp [h2]

/-- The order of the two tests after an item does not matter. -/
theorem close_or_comma {t : Token} {p q r : Prop} :
    (if t.type = .CloseBracket then p else if t.type = .Comma then q else r) ↔
      if t.type = .Comma then q else if t.type = .CloseBracket then p else r := by
  by_cases hc : t.type = .Comma
  · simp [hc]
  · simp [hc]

/-- The loop over the columns reads a list of columns. -/
theorem wp_createLoop {Q : Fields → List Token → Prop} (n : ℕ) (obj : Fields) (ts : List Token)
    (hts : ts.length < n) :
    wp listHandler (createLoop n obj) Q (faults G) ts ↔
      (readList readColumn n ts).elim (G .object) fun r =>
        if (r.2.headD endToken).type = .CloseBracket then
          Q (obj.pushAll (str "columns") (r.1.map .pair)) r.2.tail
        else G .object := by
  rw [wp_commaLoop readColumn (str "columns") .pair
    (fun obj t => if t.type = .CloseBracket then pure obj else .fail .object) ?_ ?_ n obj ts hts]
  · simp only [wp_ite, pure_eq, wp_ret, wp_fail, faults_apply]
  · intro n obj ts
    conv_lhs => unfold createLoop
    -- a column is a name and a type; fewer tokens end the command
    rcases ts with _ | ⟨w, _ | ⟨t, ts⟩⟩
    · simp [wp_nextToken, wp_require, readColumn, endToken]
    · simp [wp_nextToken, wp_require, readColumn, endToken]
    · simp only [wp_bind, wp_nextToken, wp_require, wp_columnType, readColumn, List.headD_cons,
        List.tail_cons,
        decide_eq_true_eq, wp_ite, Token.text]
      by_cases hw : w.type = .Word
      · by_cases ht : t.type = .Word
        · by_cases h1 : t.value.map upper = str "INT"
          · simp only [hw, ht, h1, if_true, true_and]
            exact close_or_comma
          · by_cases h2 : t.value.map upper = str "TEXT"
            · have hne : ¬ str "TEXT" = str "INT" := by decide
              simp only [hw, ht, h2, hne, if_true, if_false, and_false, true_and]
              exact close_or_comma
            · simp [hw, ht, h1, h2]
        · simp [hw, ht]
      · simp [hw]
  · intro ts a rest h
    obtain ⟨front, ⟨_, _, _⟩, rfl⟩ := (reads_column ts a rest).1 h
    simp

/-- The loop over the values reads a list of values. -/
theorem wp_insertLoop {Q : Fields → List Token → Prop} (n : ℕ) (obj : Fields) (ts : List Token)
    (hts : ts.length < n) :
    wp listHandler (insertLoop n obj) Q (faults G) ts ↔
      (readList readValue n ts).elim (G .object) fun r =>
        if (r.2.headD endToken).type = .CloseBracket then
          Q (obj.pushAll (str "values") (r.1.map .str)) r.2.tail
        else G .object := by
  rw [wp_commaLoop readValue (str "values") .str
    (fun obj t => if t.type = .CloseBracket then pure obj else .fail .object) ?_ ?_ n obj ts hts]
  · simp only [wp_ite, pure_eq, wp_ret, wp_fail, faults_apply]
  · intro n obj ts
    conv_lhs => unfold insertLoop
    rcases ts with _ | ⟨v, ts⟩
    · simp [wp_nextToken, wp_require, readValue, endToken, Token.isValue]
    · simp only [wp_bind, wp_nextToken, wp_require, readValue, List.headD_cons, List.tail_cons,
        isValue_iff, wp_ite]
      by_cases hv : v.Value
      · simp only [hv, if_true]
        exact close_or_comma
      · simp [hv]
  · intro ts a rest h
    obtain ⟨front, ⟨_⟩, rfl⟩ := (reads_value ts a rest).1 h
    simp

/-- The loop over the assignments or conditions reads a list of pairs. -/
theorem wp_pairsLoop {Q : Fields × Token → List Token → Prop} (field : Str) (n : ℕ) (obj : Fields)
    (ts : List Token) (hts : ts.length < n) :
    wp listHandler (pairsLoop field n obj) Q (faults G) ts ↔
      (readList readPair n ts).elim (G .object) fun r =>
        Q (obj.pushAll field (r.1.map .pair), r.2.headD endToken) r.2.tail := by
  rw [wp_commaLoop readPair field .pair
    (fun obj t => pure (obj, t)) ?_ ?_ n obj ts hts]
  · simp only [pure_eq, wp_ret]
  · intro n obj ts
    conv_lhs => unfold pairsLoop
    -- a pair is three tokens; fewer end the command
    rcases ts with _ | ⟨w, _ | ⟨e, _ | ⟨v, ts⟩⟩⟩
    · simp [wp_nextToken, wp_require, readPair, endToken]
    · simp [wp_nextToken, wp_require, readPair, endToken]
    · simp [wp_nextToken, wp_require, readPair, endToken, Token.isValue]
    · simp only [wp_bind, wp_nextToken, wp_require, readPair, List.headD_cons, List.tail_cons,
        isValue_iff, decide_eq_true_eq, wp_ite]
      by_cases hw : w.type = .Word
      · by_cases he : e.type = .Equal
        · by_cases hv : v.Value
          · simp only [hw, he, hv, if_true, and_self]
            exact Iff.rfl
          · simp [hw, he, hv]
        · simp [hw, he]
      · simp [hw]
  · intro ts a rest h
    obtain ⟨front, ⟨_, _, _⟩, rfl⟩ := (reads_pair ts a rest).1 h
    simp
    omega

/-- The columns of `Select`, from their first word on. -/
theorem wp_selectLoop {Q : Fields × Token → List Token → Prop} (n : ℕ) (obj : Fields)
    (ts : List Token) (hts : ts.length < n) :
    wp listHandler (do
      let currentToken ← nextToken
      require (currentToken.type = .Word)
      selectLoop n (obj.push (str "columns") (.str currentToken.value))) Q (faults G) ts ↔
      (readList readWord n ts).elim (G .object) fun r =>
        Q (obj.pushAll (str "columns") (r.1.map .str), r.2.headD endToken) r.2.tail := by
  rw [wp_commaLoop (L := fun n obj => do
    let currentToken ← nextToken
    require (currentToken.type = .Word)
    selectLoop n (obj.push (str "columns") (.str currentToken.value))) readWord
    (str "columns") .str (fun obj t => pure (obj, t)) ?_ ?_ n obj ts hts]
  · simp only [pure_eq, wp_ret]
  · intro n obj ts
    conv_lhs => unfold selectLoop
    rcases ts with _ | ⟨w, ts⟩
    · simp [wp_nextToken, wp_require, readWord, endToken]
    · simp only [wp_bind, wp_nextToken, wp_require, readWord, List.headD_cons, List.tail_cons,
        decide_eq_true_eq, wp_ite, ne_eq, ite_not]
      by_cases hw : w.type = .Word
      · simp only [hw, if_true]
        exact Iff.rfl
      · simp [hw]
  · intro ts a rest h
    obtain ⟨front, ⟨_⟩, rfl⟩ := (reads_word ts a rest).1 h
    simp

/-- A condition on the value alone. -/
def values (Q : β → Prop) : β → List Token → Prop := fun b _ => Q b

@[simp] theorem values_apply (Q : β → Prop) (b : β) (ts : List Token) : values Q b ts = Q b := rfl

variable {P : Json → Prop}

/-- Reading a list leaves a part of the tokens. -/
theorem readList_rest {read : List Token → Option (α × List Token)} {item : List Token → α → Prop}
    (h : Reads read item) {n : ℕ} {items : List α} {rest : List Token}
    (hr : readList read n ts = some (items, rest)) : ∃ front, ts = front ++ rest := by
  obtain ⟨front, -, hf, -⟩ := readSeparated_sound h n ts hr
  exact ⟨front, hf⟩

/-- The `WHERE` part reads an optional list of conditions. -/
theorem wp_whereClause {n : ℕ} (obj : Fields) (hn : ts.length < n) (hts : ∀ t ∈ ts, t.type ≠ .END) :
    wp listHandler (whereClause n obj (ts.headD endToken)) (values P) (faults G) ts.tail ↔
      (readWhere n ts).elim (G .object) fun wheres =>
        P (.obj (obj.pushAll (str "where") (wheres.map .pair))) := by
  unfold whereClause
  rcases ts with _ | ⟨k, ts⟩
  · exact Iff.rfl
  · have hk := hts k (by simp)
    have hlen : ts.length < n := by rw [List.length_cons] at hn; omega
    simp only [List.headD_cons, List.tail_cons, hk, if_false, wp_bind, wp_require,
      decide_eq_true_eq,
      wp_checkWords (keyword_upper "WHERE" (by simp)), readWhere, Token.text,
      wp_pairsLoop _ _ _ _ hlen]
    by_cases hw : k.type = .Word
    · by_cases ht : k.value.map upper = str "WHERE"
      · simp only [hw, ht, if_true, and_self]
        rcases hr : readList readPair n ts with _ | ⟨items, rest⟩
        · exact Iff.rfl
        · obtain ⟨front, rfl⟩ := readList_rest reads_pair hr
          have hrest : ∀ t ∈ rest, t.type ≠ .END := fun t h => hts t (by simp [h])
          rcases rest with _ | ⟨r, rest⟩
          · exact Iff.rfl
          · have hr' := hrest r (by simp)
            simp [hr']
      · simp [hw, ht]
    · simp [hw]

/-- What `Create` and `Insert` check from the opening bracket on. -/
theorem bracket_iff {read : List Token → Option (α × List Token)} {item : List Token → α → Prop}
    (h : Reads read item) {n : ℕ} {o : Token} {V : List α → Prop} {p : Prop}
    (hts : ∀ t ∈ ts, t.type ≠ .END) :
    (if o.type = .OpenBracket then
      (readList read n ts).elim p fun r =>
        if (r.2.headD endToken).type = .CloseBracket then
          if (r.2.tail.headD endToken).type = .END then V r.1 else p
        else p
    else p) ↔ (readBracket read n (o :: ts)).elim p V := by
  unfold readBracket
  by_cases ho : o.type = .OpenBracket
  · simp only [ho, if_true]
    rcases hr : readList read n ts with _ | ⟨items, _ | ⟨b, _ | ⟨t, rest⟩⟩⟩
    · exact Iff.rfl
    · simp [closes, endToken]
    · by_cases hb : b.type = .CloseBracket
      · simp [closes, endToken, hb]
      · simp [closes, hb]
    · obtain ⟨front, rfl⟩ := readList_rest h hr
      have ht := hts t (by simp)
      simp [closes, ht]
  · simp [ho]

/-! The object each routine builds is the object of its statement. -/

/-- The fields set by `Create` are the JSON of its statement. -/
theorem create_json (table : Str) (columns : List (Str × Str)) :
    Json.obj (Fields.pushAll (str "columns") (columns.map .pair)
      (.set (str "columns") (.arr []) (.set (str "table_name") (.str table)
        (.set (str "op") (.str (str "create")) [])))) = (Statement.create table columns).json := by
  have hset : Fields.set (str "columns") (.arr []) (.set (str "table_name") (.str table)
      (.set (str "op") (.str (str "create")) [])) = [(str "columns", .arr []),
        (str "op", .str (str "create")), (str "table_name", .str table)] := rfl
  rw [hset, Fields.pushAll_here, List.nil_append]
  rfl

theorem insert_json (table : Str) (items : List Str) :
    Json.obj (Fields.pushAll (str "values") (items.map .str)
      (.set (str "values") (.arr []) (.set (str "table_name") (.str table)
        (.set (str "op") (.str (str "insert")) [])))) = (Statement.insert table items).json := by
  have hset : Fields.set (str "values") (.arr []) (.set (str "table_name") (.str table)
      (.set (str "op") (.str (str "insert")) [])) = [(str "op", .str (str "insert")),
        (str "table_name", .str table), (str "values", .arr [])] := rfl
  rw [hset, Fields.pushAll_there (by decide), Fields.pushAll_there (by decide), Fields.pushAll_here,
    List.nil_append]
  rfl

theorem select_json (columns : List Str) (table : Str) (wheres : List (Str × Str)) :
    Json.obj (Fields.pushAll (str "where") (wheres.map .pair)
      (.set (str "table_name") (.str table) (.pushAll (str "columns") (columns.map .str)
        (.set (str "columns") (.arr []) (.set (str "where") (.arr [])
          (.set (str "op") (.str (str "select")) [])))))) =
      (Statement.select columns table wheres).json := by
  have hset : Fields.set (str "columns") (.arr []) (.set (str "where") (.arr [])
      (.set (str "op") (.str (str "select")) [])) = [(str "columns", .arr []),
        (str "op", .str (str "select")), (str "where", .arr [])] := rfl
  have htable : ∀ v : Json, Fields.set (str "table_name") (.str table) [(str "columns", v),
      (str "op", .str (str "select")), (str "where", .arr [])] = [(str "columns", v),
        (str "op", .str (str "select")), (str "table_name", .str table), (str "where", .arr [])] :=
    fun _ => rfl
  rw [hset, Fields.pushAll_here, List.nil_append, htable, Fields.pushAll_there (by decide),
    Fields.pushAll_there (by decide), Fields.pushAll_there (by decide), Fields.pushAll_here,
    List.nil_append]
  rfl

theorem update_json (table : Str) (sets wheres : List (Str × Str)) :
    Json.obj (Fields.pushAll (str "where") (wheres.map .pair)
      (.pushAll (str "values") (sets.map .pair) (.set (str "values") (.arr [])
        (.set (str "table_name") (.str table) (.set (str "where") (.arr [])
          (.set (str "op") (.str (str "update")) [])))))) =
      (Statement.update table sets wheres).json := by
  have hset : Fields.set (str "values") (.arr []) (.set (str "table_name") (.str table)
      (.set (str "where") (.arr []) (.set (str "op") (.str (str "update")) []))) =
        [(str "op", .str (str "update")), (str "table_name", .str table), (str "values", .arr []),
          (str "where", .arr [])] := rfl
  have hsets : Fields.pushAll (str "values") (sets.map .pair) [(str "op", .str (str "update")),
      (str "table_name", .str table), (str "values", .arr []), (str "where", .arr [])] =
        [(str "op", .str (str "update")), (str "table_name", .str table),
          (str "values", .arr (sets.map .pair)), (str "where", .arr [])] := by
    rw [Fields.pushAll_there (by decide), Fields.pushAll_there (by decide), Fields.pushAll_here,
      List.nil_append]
  rw [hset, hsets, Fields.pushAll_there (by decide), Fields.pushAll_there (by decide),
    Fields.pushAll_there (by decide), Fields.pushAll_here, List.nil_append]
  rfl

theorem delete_json (table : Str) (wheres : List (Str × Str)) :
    Json.obj (Fields.pushAll (str "where") (wheres.map .pair)
      (.set (str "table_name") (.str table) (.set (str "where") (.arr [])
        (.set (str "op") (.str (str "delete")) [])))) = (Statement.delete table wheres).json := by
  have hset : Fields.set (str "table_name") (.str table) (.set (str "where") (.arr [])
      (.set (str "op") (.str (str "delete")) [])) = [(str "op", .str (str "delete")),
        (str "table_name", .str table), (str "where", .arr [])] := rfl
  rw [hset, Fields.pushAll_there (by decide), Fields.pushAll_there (by decide), Fields.pushAll_here,
    List.nil_append]
  rfl

/-- `Create` answers what its reader reads. -/
theorem wp_create {n : ℕ} (hn : ts.length < n) (hts : ∀ t ∈ ts, t.type ≠ .END) :
    wp listHandler (create n) (values P) (faults G) ts ↔
      (readRest n (str "CREATE") ts).elim (G .object) fun stmt => P stmt.json := by
  unfold create
  -- by the number of tokens left: too few for the keywords, or a bracket is read
  rcases ts with _ | ⟨t, _ | ⟨w, _ | ⟨o, ts⟩⟩⟩
  · simp [wp_nextToken, wp_require, readRest, endToken]
  · simp only [wp_bind, wp_nextToken, wp_require, wp_checkWords (keyword_upper "TABLE" (by simp)),
      List.headD_cons, List.tail_cons, decide_eq_true_eq]
    simp [endToken, readRest]
  · simp only [wp_bind, wp_nextToken, wp_require, wp_checkWords (keyword_upper "TABLE" (by simp)),
      List.headD_cons, List.tail_cons, decide_eq_true_eq]
    simp [endToken, readRest, readBracket]
  · have hlen : ts.length < n := by simp only [List.length_cons] at hn; omega
    have hts' : ∀ t ∈ ts, t.type ≠ .END := fun t h => hts t (by simp [h])
    have hb :=
      bracket_iff (n := n) (o := o) (V := fun items => P (Statement.create w.value items).json)
      (p := G .object) reads_column hts'
    simp only [wp_bind, wp_nextToken, wp_require, wp_checkWords (keyword_upper "TABLE" (by simp)),
      List.headD_cons, List.tail_cons, decide_eq_true_eq, wp_createLoop _ _ _ hlen, pure_eq, wp_ret,
      values_apply, readRest, if_true, Token.text, create_json]
    by_cases h : t.type = .Word ∧ t.value.map upper = str "TABLE" ∧ w.type = .Word
    · obtain ⟨h1, h2, h3⟩ := h
      simp only [h1, h2, h3, if_true, and_self]
      rw [hb, Option.elim_map]
      exact Iff.rfl
    · simp only [h, if_false]
      by_cases h1 : t.type = .Word
      · by_cases h2 : t.value.map upper = str "TABLE"
        · simp_all
        · simp [h1, h2]
      · simp [h1]

/-- `Insert` answers what its reader reads. -/
theorem wp_insert {n : ℕ} (hn : ts.length < n) (hts : ∀ t ∈ ts, t.type ≠ .END) :
    wp listHandler (insert n) (values P) (faults G) ts ↔
      (readRest n (str "INSERT") ts).elim (G .object) fun stmt => P stmt.json := by
  have hne : ¬ str "INSERT" = str "CREATE" := by decide
  unfold insert
  -- by the number of tokens left: too few for the keywords, or a bracket is read
  rcases ts with _ | ⟨i, _ | ⟨w, _ | ⟨k, _ | ⟨o, ts⟩⟩⟩⟩
  · simp [wp_nextToken, wp_require, readRest, endToken, hne]
  · simp only [wp_bind, wp_nextToken, wp_require, wp_checkWords (keyword_upper "INTO" (by simp)),
      List.headD_cons, List.tail_cons, decide_eq_true_eq]
    simp [endToken, readRest, hne]
  · simp only [wp_bind, wp_nextToken, wp_require, wp_checkWords (keyword_upper "INTO" (by simp)),
      List.headD_cons, List.tail_cons, decide_eq_true_eq]
    simp [endToken, readRest, hne]
  · simp only [wp_bind, wp_nextToken, wp_require, wp_checkWords (keyword_upper "INTO" (by simp)),
      wp_checkWords (keyword_upper "VALUES" (by simp)), List.headD_cons, List.tail_cons,
      decide_eq_true_eq]
    simp [endToken, readRest, readBracket, hne]
  · have hlen : ts.length < n := by simp only [List.length_cons] at hn; omega
    have hts' : ∀ t ∈ ts, t.type ≠ .END := fun t h => hts t (by simp [h])
    have hb :=
      bracket_iff (n := n) (o := o) (V := fun items => P (Statement.insert w.value items).json)
      (p := G .object) reads_value hts'
    simp only [wp_bind, wp_nextToken, wp_require, wp_checkWords (keyword_upper "INTO" (by simp)),
      wp_checkWords (keyword_upper "VALUES" (by simp)), List.headD_cons, List.tail_cons,
      decide_eq_true_eq,
      wp_insertLoop _ _ _ hlen, pure_eq, wp_ret, values_apply, readRest, hne, if_false, if_true,
      Token.text, insert_json]
    by_cases h1 : i.type = .Word
    · by_cases h2 : i.value.map upper = str "INTO"
      · by_cases h3 : w.type = .Word
        · by_cases h4 : k.type = .Word
          · by_cases h5 : k.value.map upper = str "VALUES"
            · simp only [h1, h2, h3, h4, h5, if_true, and_self]
              rw [hb, Option.elim_map]
              exact Iff.rfl
            · simp [h1, h2, h3, h4, h5]
          · simp [h1, h2, h3, h4]
        · simp [h1, h2, h3]
      · simp [h1, h2]
    · simp [h1]

/-- The columns of `Select` are a star or a list of words. -/
theorem wp_selectColumns {Q : Fields × Token → List Token → Prop} {n : ℕ} (obj : Fields)
    (hn : ts.length < n) :
    wp listHandler (do selectColumns n obj (← nextToken)) Q (faults G) ts ↔
      (readSelectColumns n ts).elim (G .object) fun r =>
        Q (obj.pushAll (str "columns") (r.1.map .str), r.2.headD endToken) r.2.tail := by
  rcases ts with _ | ⟨t, ts⟩
  · exact Iff.rfl
  · by_cases hw : t.type = .Word
    · have hloop := wp_selectLoop (Q := Q) (G := G) n obj (t :: ts) hn
      simp only [wp_bind, wp_nextToken, wp_require, List.headD_cons, List.tail_cons,
        decide_eq_true_eq, hw,
        if_true] at hloop
      simp only [wp_bind, wp_nextToken, List.headD_cons, List.tail_cons, selectColumns,
        readSelectColumns,
        wp_ite, hw, if_true]
      exact hloop
    · by_cases ha : t.type = .Any
      · simp [wp_nextToken, selectColumns, readSelectColumns, ha, Fields.pushAll]
      · simp [wp_nextToken, selectColumns, readSelectColumns, hw, ha]

/-- Reading the columns leaves a suffix of the tokens. -/
theorem readSelectColumns_rest {n : ℕ} {columns : List Str} {rest : List Token}
    (h : readSelectColumns n ts = some (columns, rest)) : ∃ front, ts = front ++ rest := by
  rcases ts with _ | ⟨t, ts⟩
  · cases h
  · simp only [readSelectColumns] at h
    split_ifs at h with hw ha
    · exact readList_rest reads_word h
    · obtain ⟨-, rfl⟩ := Prod.mk.inj (Option.some.inj h)
      exact ⟨[t], rfl⟩

/-- `Select` answers what its reader reads. -/
theorem wp_select {n : ℕ} (hn : ts.length < n) (hts : ∀ t ∈ ts, t.type ≠ .END) :
    wp listHandler (select n) (values P) (faults G) ts ↔
      (readRest n (str "SELECT") ts).elim (G .object) fun stmt => P stmt.json := by
  have hc : ¬ str "SELECT" = str "CREATE" := by decide
  have hi : ¬ str "SELECT" = str "INSERT" := by decide
  have hcols := fun obj Q => wp_selectColumns (Q := Q) (G := G) obj hn
  simp only [wp_bind] at hcols
  unfold select
  simp only [wp_bind, hcols]
  unfold readRest
  simp only [hc, hi, if_false, if_true]
  -- the columns first; what follows has to be `FROM` and a name
  rcases hr : readSelectColumns n ts with _ | ⟨columns, rest⟩
  · exact Iff.rfl
  obtain ⟨front, rfl⟩ := readSelectColumns_rest hr
  simp only [Option.elim_some, wp_checkWords (keyword_upper "FROM" (by simp)), wp_require,
    wp_nextToken,
    decide_eq_true_eq]
  rcases rest with _ | ⟨f, _ | ⟨w, ts⟩⟩
  · simp [endToken]
  · simp [endToken]
  · have hlen : ts.length < n := by simp at hn; omega
    have hts' : ∀ t ∈ ts, t.type ≠ .END := fun t h => hts t (by simp [h])
    simp only [List.headD_cons, List.tail_cons, wp_whereClause _ hlen hts', select_json, Token.text]
    by_cases h1 : f.value.map upper = str "FROM"
    · by_cases h2 : w.type = .Word
      · simp only [h1, h2, if_true, and_self, Option.elim_map]
        exact Iff.rfl
      · simp [h1, h2]
    · simp [h1]

/-- `Update` answers what its reader reads. -/
theorem wp_update {n : ℕ} (hn : ts.length < n) (hts : ∀ t ∈ ts, t.type ≠ .END) :
    wp listHandler (update n) (values P) (faults G) ts ↔
      (readRest n (str "UPDATE") ts).elim (G .object) fun stmt => P stmt.json := by
  have hc : ¬ str "UPDATE" = str "CREATE" := by decide
  have hi : ¬ str "UPDATE" = str "INSERT" := by decide
  have hs : ¬ str "UPDATE" = str "SELECT" := by decide
  unfold update readRest
  simp only [hc, hi, hs, if_false, if_true]
  rcases ts with _ | ⟨w, _ | ⟨s, ts⟩⟩
  · simp [wp_nextToken, wp_require, endToken]
  · simp [wp_nextToken, wp_require, endToken]
  · have hlen : ts.length < n := by simp only [List.length_cons] at hn; omega
    simp only [wp_bind, wp_nextToken, wp_require, wp_checkWords (keyword_upper "SET" (by simp)),
      List.headD_cons, List.tail_cons, decide_eq_true_eq, wp_pairsLoop _ _ _ _ hlen, Token.text]
    by_cases h1 : w.type = .Word
    · by_cases h2 : s.type = .Word
      · by_cases h3 : s.value.map upper = str "SET"
        · simp only [h1, h2, h3, if_true, and_self]
          -- the assignments leave a suffix for the `WHERE` part
          rcases hr : readList readPair n ts with _ | ⟨sets, rest⟩
          · exact Iff.rfl
          obtain ⟨front, rfl⟩ := readList_rest reads_pair hr
          have hrest : rest.length < n := by simp at hlen; omega
          have hts' : ∀ t ∈ rest, t.type ≠ .END := fun t h => hts t (by simp [h])
          simp only [Option.elim_some, wp_whereClause _ hrest hts', update_json, Option.elim_map]
          exact Iff.rfl
        · simp [h1, h2, h3]
      · simp [h1, h2]
    · simp [h1]

/-- `Delete` answers what its reader reads. -/
theorem wp_delete {n : ℕ} (hn : ts.length < n) (hts : ∀ t ∈ ts, t.type ≠ .END) :
    wp listHandler (delete n) (values P) (faults G) ts ↔
      (readRest n (str "DELETE") ts).elim (G .object) fun stmt => P stmt.json := by
  have hc : ¬ str "DELETE" = str "CREATE" := by decide
  have hi : ¬ str "DELETE" = str "INSERT" := by decide
  have hs : ¬ str "DELETE" = str "SELECT" := by decide
  have hu : ¬ str "DELETE" = str "UPDATE" := by decide
  unfold delete readRest
  simp only [hc, hi, hs, hu, if_false, if_true]
  -- by the number of tokens left: too few for the keywords, or the `WHERE` part
  rcases ts with _ | ⟨f, _ | ⟨w, ts⟩⟩
  · simp [wp_nextToken, wp_require, endToken]
  · simp only [wp_bind, wp_nextToken, wp_require, wp_checkWords (keyword_upper "FROM" (by simp)),
      List.headD_cons, List.tail_cons, decide_eq_true_eq]
    simp [endToken]
  · have hlen : ts.length < n := by simp only [List.length_cons] at hn; omega
    have hts' : ∀ t ∈ ts, t.type ≠ .END := fun t h => hts t (by simp [h])
    simp only [wp_bind, wp_nextToken, wp_require, wp_checkWords (keyword_upper "FROM" (by simp)),
      List.headD_cons, List.tail_cons, decide_eq_true_eq, wp_whereClause _ hlen hts', delete_json,
      Token.text]
    by_cases h1 : f.type = .Word
    · by_cases h2 : f.value.map upper = str "FROM"
      · by_cases h3 : w.type = .Word
        · simp only [h1, h2, h3, if_true, and_self, Option.elim_map]
          exact Iff.rfl
        · simp [h1, h2, h3]
      · simp [h1, h2]
    · simp [h1]

/-- **`serialize`** reads the statement, or returns the empty object. -/
theorem wp_serialize {n : ℕ} (hn : ts.length < n) (hts : ∀ t ∈ ts, t.type ≠ .END) :
    wp listHandler (serialize n) (values P) (faults G) ts ↔
      (readStatement n ts).elim (G .object) fun stmt => P stmt.json := by
  unfold serialize
  rcases ts with _ | ⟨c, ts⟩
  · simp [wp_nextToken, wp_require, readStatement, endToken]
  have hlen : ts.length < n := by rw [List.length_cons] at hn; omega
  have hts' : ∀ t ∈ ts, t.type ≠ .END := fun t h => hts t (by simp [h])
  simp only [wp_bind, wp_nextToken, wp_require, List.headD_cons, List.tail_cons, decide_eq_true_eq,
    dispatch, commands, wp_ite, wp_fail, faults_apply,
    wp_checkWords (keyword_upper "CREATE" (by simp)),
    wp_checkWords (keyword_upper "INSERT" (by simp)),
    wp_checkWords (keyword_upper "SELECT" (by simp)),
    wp_checkWords (keyword_upper "UPDATE" (by simp)),
    wp_checkWords (keyword_upper "DELETE" (by simp)),
    wp_create hlen hts', wp_insert hlen hts', wp_select hlen hts', wp_update hlen hts',
    wp_delete hlen hts', readStatement, Token.text]
  -- the commands have six letters each, so the lengths agree
  have hsix : ∀ {w : Str}, c.value.map upper = w → w.length = 6 → c.value.length = 6 :=
    fun h hw => by rw [← hw, ← h, List.length_map]
  by_cases hw : c.type = .Word
  · simp only [hw, if_true]
    by_cases h1 : c.value.map upper = str "CREATE"
    · simp only [h1, hsix h1 rfl, if_true]
    by_cases h2 : c.value.map upper = str "INSERT"
    · simp only [h2, hsix h2 rfl, if_true]
      exact Iff.rfl
    by_cases h3 : c.value.map upper = str "SELECT"
    · simp only [h3, hsix h3 rfl, if_true]
      exact Iff.rfl
    by_cases h4 : c.value.map upper = str "UPDATE"
    · simp only [h4, hsix h4 rfl, if_true]
      exact Iff.rfl
    by_cases h5 : c.value.map upper = str "DELETE"
    · simp only [h5, hsix h5 rfl, if_true]
      exact Iff.rfl
    simp [h1, h2, h3, h4, h5, readRest]
  · simp [hw]

/-- What the parser returns, from the tokens of the input. -/
theorem serialize_read {n : ℕ} {input : Str} (hn : input.length < n) :
    result ((serialize n).run handler ⟨input, 0⟩).1 =
      .ok ((readStatement n (tokensOf input)).elim .object Statement.json) := by
  have hlen : (tokensOf input).length < n := (length_tokensOf input).trans_lt hn
  rw [serialize_eq]
  rcases hr : (serialize n).run listHandler (tokensOf input) with ⟨e | j, ts'⟩
  · have hwp := (wp_serialize (G := fun e' => e' = e) (P := fun _ => False) hlen
      (type_of_mem_tokensOf input)).1 (by unfold wp; rw [hr]; rfl)
    rcases hs : readStatement n (tokensOf input) with _ | stmt
    · rw [hs] at hwp
      obtain rfl : Stop.object = e := hwp
      rfl
    · rw [hs] at hwp
      exact hwp.elim
  · have hwp := (wp_serialize (G := fun _ => False) (P := fun j' => j' = j) hlen
      (type_of_mem_tokensOf input)).1 (by unfold wp; rw [hr]; rfl)
    rcases hs : readStatement n (tokensOf input) with _ | stmt
    · rw [hs] at hwp
      exact hwp.elim
    · rw [hs] at hwp
      obtain rfl : stmt.json = j := hwp
      rfl

/-- `parse` answers what the reader of statements reads, and the empty object if it reads nothing.
-/
theorem parse_read (input : Str) :
    parse input =
      .ok ((readStatement (input.length + 1) (tokensOf input)).elim .object Statement.json) :=
  serialize_read (Nat.lt_succ_self _)

end Parser

/-! ## The texts of tokens -/

theorem upper_digit (c : UInt8) : isDigit c = true → upper c ≠ 70 := by
  revert c
  apply forall_byte
  decide +kernel

/-- A token of one character has one character. -/
theorem length_singleToken (c : UInt8) : (singleToken c).value.length = 1 := by
  unfold singleToken
  split_ifs <;> rfl

theorem str_from : str "FROM" = [70, 82, 79, 77] := by decide

/-- Only a word or a literal can have the text `FROM`. -/
theorem lexFrom_from {c : UInt8} {s : Str} (h : (lexFrom c s).1.text = str "FROM") :
    (lexFrom c s).1.type = .Word ∨ (lexFrom c s).1.type = .Literal := by
  have hlen : (lexFrom c s).1.value.length = 4 := by
    rw [← List.length_map upper]
    exact congrArg List.length h
  rw [str_from] at h
  unfold lexFrom at h hlen ⊢
  split_ifs at h hlen ⊢ with hd ha hq
  · simp only [Token.text, List.takeWhile_cons, if_pos hd, List.map_cons] at h
    exact absurd (List.cons.inj h).1 (upper_digit c hd)
  · exact Or.inl rfl
  · unfold lexLiteral at h ⊢
    split_ifs at h ⊢
    · exact absurd h (by simp [Token.text])
    · exact Or.inr rfl
  · rw [length_singleToken] at hlen
    omega

/-- What reads `FROM` is a word or a quoted text. -/
theorem lexOne_from {s : Str} (h : (lexOne s).1.text = str "FROM") :
    (lexOne s).1.type = .Word ∨ (lexOne s).1.type = .Literal := by
  unfold lexOne at h ⊢
  rcases hs : s.dropWhile isSpace with _ | ⟨c, s'⟩
  · rw [hs] at h
    exact absurd (h.trans str_from) (by simp [Token.text, endToken])
  · rw [hs] at h
    exact lexFrom_from h

theorem type_of_from (s : Str) :
    ∀ t ∈ tokensOf s, t.text = str "FROM" → t.type = .Word ∨ t.type = .Literal := by
  induction s using tokensOf.induct with
  | case1 s h => simp [tokensOf_end h]
  | case2 s h ih =>
    rw [tokensOf_cons h]
    exact List.forall_mem_cons.2 ⟨lexOne_from, ih⟩

end ToySQL
