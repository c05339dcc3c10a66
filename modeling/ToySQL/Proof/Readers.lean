import ToySQL.Spec.Grammar

/-!
# Readers of the grammar

Each piece of the grammar has a reader, a function on token lists. `readStatement_sound`
and `readStatement_complete` say that the readers take exactly the grammar, but for the
token `FROM` of a `SELECT`, whose kind the parser does not look at.
-/

namespace ToySQL

/-! ## The readers -/

def readColumn : List Token → Option ((Str × Str) × List Token)
  | w :: t :: rest =>
    if w.type = .Word ∧ t.type = .Word ∧ t.text = str "INT" then some ((w.value, str "INT"), rest)
    else if w.type = .Word ∧ t.type = .Word ∧ t.text = str "TEXT" then
      some ((w.value, str "TEXT"), rest)
    else none
  | _ => none

def readValue : List Token → Option (Str × List Token)
  | v :: rest => if v.Value then some (v.value, rest) else none
  | [] => none

def readWord : List Token → Option (Str × List Token)
  | w :: rest => if w.type = .Word then some (w.value, rest) else none
  | [] => none

def readPair : List Token → Option ((Str × Str) × List Token)
  | w :: e :: v :: rest =>
    if w.type = .Word ∧ e.type = .Equal ∧ v.Value then some ((w.value, v.value), rest) else none
  | _ => none

/-- The reader of one column reads the columns of the grammar. -/
theorem reads_column : Reads readColumn ColumnItem := by
  intro ts a rest
  constructor
  · intro h
    rcases ts with _ | ⟨w, _ | ⟨t, ts⟩⟩
    · cases h
    · cases h
    · simp only [readColumn] at h
      split_ifs at h with h1 h2
      · obtain ⟨rfl, rfl⟩ := Prod.mk.inj (Option.some.inj h)
        exact ⟨[w, t], .mk h1.1 (by simp) h1.2, rfl⟩
      · obtain ⟨rfl, rfl⟩ := Prod.mk.inj (Option.some.inj h)
        exact ⟨[w, t], .mk h2.1 (by simp) h2.2, rfl⟩
  · rintro ⟨front, ⟨hw, hin, ht⟩, rfl⟩
    simp only [List.mem_cons, List.not_mem_nil, or_false] at hin
    unfold readColumn
    rcases hin with rfl | rfl
    · exact if_pos ⟨hw, ht⟩
    · have hne : ¬ str "TEXT" = str "INT" := by decide
      simp [hw, ht.1, ht.2, hne]

/-- The reader of one value reads the values of the grammar. -/
theorem reads_value : Reads readValue ValueItem := by
  intro ts a rest
  constructor
  · intro h
    rcases ts with _ | ⟨v, ts⟩
    · cases h
    · simp only [readValue] at h
      split_ifs at h with hv
      obtain ⟨rfl, rfl⟩ := Prod.mk.inj (Option.some.inj h)
      exact ⟨[v], .mk hv, rfl⟩
  · rintro ⟨front, ⟨hv⟩, rfl⟩
    exact if_pos hv

/-- The reader of one word reads the words of the grammar. -/
theorem reads_word : Reads readWord WordItem := by
  intro ts a rest
  constructor
  · intro h
    rcases ts with _ | ⟨w, ts⟩
    · cases h
    · simp only [readWord] at h
      split_ifs at h with hw
      obtain ⟨rfl, rfl⟩ := Prod.mk.inj (Option.some.inj h)
      exact ⟨[w], .mk hw, rfl⟩
  · rintro ⟨front, ⟨hw⟩, rfl⟩
    exact if_pos hw

/-- The reader of one pair reads the pairs of the grammar. -/
theorem reads_pair : Reads readPair PairItem := by
  intro ts a rest
  constructor
  · intro h
    rcases ts with _ | ⟨w, _ | ⟨e, _ | ⟨v, ts⟩⟩⟩
    · cases h
    · cases h
    · cases h
    · simp only [readPair] at h
      split_ifs at h with hp
      obtain ⟨rfl, rfl⟩ := Prod.mk.inj (Option.some.inj h)
      exact ⟨[w, e, v], .mk hp.1 hp.2.1 hp.2.2, rfl⟩
  · rintro ⟨front, ⟨hw, he, hv⟩, rfl⟩
    exact if_pos ⟨hw, he, hv⟩

/-- A comma-separated list read off the tokens. -/
def readList {α : Type} (read : List Token → Option (α × List Token)) (n : ℕ) (ts : List Token) :
    Option (List α × List Token) :=
  readSeparated read (fun t => t.type = .Comma) n ts

/-- The tokens that are left, if the first of them closes a bracket and is the last. -/
def closes : List Token → Bool
  | [b] => b.type = .CloseBracket
  | _ => false

def readWhere (n : ℕ) : List Token → Option (List (Str × Str))
  | [] => some []
  | k :: ts =>
    if k.type = .Word ∧ k.text = str "WHERE" then
      match readList readPair n ts with
      | some (wheres, []) => some wheres
      | _ => none
    else none

/-- A bracketed list that ends the statement. -/
def readBracket {α : Type} (read : List Token → Option (α × List Token)) (n : ℕ) :
    List Token → Option (List α)
  | o :: ts =>
    if o.type = .OpenBracket then
      match readList read n ts with
      | some (items, rest) => if closes rest then some items else none
      | none => none
    else none
  | [] => none

def readSelectColumns (n : ℕ) : List Token → Option (List Str × List Token)
  | t :: ts =>
    if t.type = .Word then readList readWord n (t :: ts)
    else if t.type = .Any then some ([str "*"], ts)
    else none
  | [] => none

/-- What follows the command word `command`. The parser does not look at the type of the
token that has the text `FROM` of a `SELECT`. -/
def readRest (n : ℕ) (command : Str) (ts : List Token) : Option Statement :=
  if command = str "CREATE" then
    match ts with
    | t :: w :: ts =>
      if t.type = .Word ∧ t.text = str "TABLE" ∧ w.type = .Word then
        (readBracket readColumn n ts).map (.create w.value)
      else none
    | _ => none
  else if command = str "INSERT" then
    match ts with
    | i :: w :: k :: ts =>
      if i.type = .Word ∧ i.text = str "INTO" ∧ w.type = .Word ∧ k.type = .Word ∧
          k.text = str "VALUES" then
        (readBracket readValue n ts).map (.insert w.value)
      else none
    | _ => none
  else if command = str "SELECT" then
    match readSelectColumns n ts with
    | some (columns, f :: w :: ts) =>
      if f.text = str "FROM" ∧ w.type = .Word then
        (readWhere n ts).map (.select columns w.value)
      else none
    | _ => none
  else if command = str "UPDATE" then
    match ts with
    | w :: s :: ts =>
      if w.type = .Word ∧ s.type = .Word ∧ s.text = str "SET" then
        match readList readPair n ts with
        | some (values, ts) => (readWhere n ts).map (.update w.value values)
        | none => none
      else none
    | _ => none
  else if command = str "DELETE" then
    match ts with
    | f :: w :: ts =>
      if f.type = .Word ∧ f.text = str "FROM" ∧ w.type = .Word then
        (readWhere n ts).map (.delete w.value)
      else none
    | _ => none
  else none

def readStatement (n : ℕ) : List Token → Option Statement
  | c :: ts => if c.type = .Word then readRest n c.text ts else none
  | [] => none

/-! ## The readers take the grammar -/

variable {α : Type} {read : List Token → Option (α × List Token)} {item : List Token → α → Prop}
  {n : ℕ} {ts rest : List Token}

/-- The reader of lists reads lists separated by commas, as long as they go on. -/
theorem readList_iff (h : Reads read item) {items : List α} (hn : ts.length < n) :
    readList read n ts = some (items, rest) ↔
      ∃ front, CommaList item front items ∧ ts = front ++ rest ∧
        ∀ t ∈ rest.head?, ¬ t.type = .Comma :=
  readSeparated_iff h hn

/-- The whole of the tokens as a list. -/
theorem readList_all (h : Reads read item) {items : List α} (hn : ts.length < n) :
    readList read n ts = some (items, []) ↔ CommaList item ts items := by
  rw [readList_iff h hn]
  constructor
  · rintro ⟨front, hf, rfl, -⟩; rwa [List.append_nil]
  · intro hs; exact ⟨ts, hs, by simp, by simp⟩

/-- The reader of the `WHERE` part reads the conditions of the grammar. -/
theorem readWhere_iff {wheres : List (Str × Str)} (hn : ts.length < n) :
    readWhere n ts = some wheres ↔ WhereClause ts wheres := by
  rcases ts with _ | ⟨k, ts⟩
  · constructor
    · intro h; obtain rfl := Option.some.inj h; exact .absent
    · rintro ⟨⟩; rfl
  have hlen : ts.length < n := by rw [List.length_cons] at hn; omega
  simp only [readWhere]
  constructor
  · intro h
    split_ifs at h with hk
    rcases hr : readList readPair n ts with _ | ⟨items, _ | ⟨t, rest⟩⟩
    · rw [hr] at h; cases h
    · rw [hr] at h
      obtain rfl := Option.some.inj h
      exact .present hk ((readList_all reads_pair hlen).1 hr)
    · rw [hr] at h; cases h
  · rintro (_ | ⟨hk, hs⟩)
    have hk' : k.type = .Word ∧ k.text = str "WHERE" := hk
    rw [if_pos hk', (readList_all reads_pair hlen).2 hs]

/-- A bracketed list, with its brackets. -/
def Bracketed (item : List Token → α → Prop) (ts : List Token) (items : List α) : Prop :=
  ∃ o front b, o.type = .OpenBracket ∧ CommaList item front items ∧ b.type = .CloseBracket ∧
    ts = o :: front ++ [b]

/-- The reader of lists in brackets reads those of the grammar. -/
theorem readBracket_iff (h : Reads read item) {items : List α} (hn : ts.length < n) :
    readBracket read n ts = some items ↔ Bracketed item ts items := by
  rcases ts with _ | ⟨o, ts⟩
  · constructor
    · intro h; cases h
    · rintro ⟨o, front, b, -, -, -, he⟩; cases he
  have hlen : ts.length < n := by rw [List.length_cons] at hn; omega
  simp only [readBracket]
  constructor
  · intro hr
    split_ifs at hr with ho
    rcases hl : readList read n ts with _ | ⟨items', rest⟩
    · rw [hl] at hr; cases hr
    rw [hl] at hr
    obtain ⟨front, hf, rfl, -⟩ := (readList_iff h hlen).1 hl
    rcases rest with _ | ⟨b, _ | ⟨t, rest⟩⟩
    · cases hr
    · simp only [closes, decide_eq_true_eq] at hr
      split_ifs at hr with hb
      obtain rfl := Option.some.inj hr
      exact ⟨o, front, b, ho, hf, hb, rfl⟩
    · cases hr
  · rintro ⟨o', front, b, ho, hf, hb, he⟩
    obtain ⟨rfl, hts⟩ := List.cons.inj he
    have hl := (readList_iff h hlen).2 ⟨front, hf, hts, show ∀ t ∈ [b].head?, _ by simp [hb]⟩
    simp [ho, hl, closes, hb]

/-- The columns read are those of the grammar. -/
theorem readSelectColumns_sound {columns : List Str} (hn : ts.length < n)
    (h : readSelectColumns n ts = some (columns, rest)) :
    ∃ front, SelectColumns front columns ∧ ts = front ++ rest := by
  rcases ts with _ | ⟨t, ts⟩
  · cases h
  simp only [readSelectColumns] at h
  split_ifs at h with hw ha
  · obtain ⟨front, hf, he, -⟩ := (readList_iff reads_word hn).1 h
    exact ⟨front, .some hf, he⟩
  · obtain ⟨rfl, rfl⟩ := Prod.mk.inj (Option.some.inj h)
    exact ⟨[t], .all ha, rfl⟩

/-- A list of words starts with a word. -/
theorem head_word {front : List Token} {columns : List Str} (h : CommaList WordItem front columns) :
    ∃ w front', front = w :: front' ∧ w.type = .Word := by
  cases h with
  | one hw => obtain ⟨hw⟩ := hw; exact ⟨_, _, rfl, hw⟩
  | cons hw => obtain ⟨hw⟩ := hw; exact ⟨_, _, rfl, hw⟩

theorem readSelectColumns_complete {front : List Token} {columns : List Str}
    (hn : (front ++ rest).length < n) (h : SelectColumns front columns)
    (hrest : ∀ t ∈ rest.head?, ¬ t.type = .Comma) :
    readSelectColumns n (front ++ rest) = some (columns, rest) := by
  cases h with
  | all ha => simp [readSelectColumns, ha]
  | some hs =>
    have hr : readList readWord n (front ++ rest) = some (columns, rest) :=
      (readList_iff reads_word hn).2 ⟨front, hs, rfl, hrest⟩
    obtain ⟨w, front', rfl, hw⟩ := head_word hs
    simp only [List.cons_append, readSelectColumns, hw, if_true] at hr ⊢
    exact hr

/-- The text `FROM`, in a token of any kind. -/
def LooseFrom (t : Token) : Prop := t.text = str "FROM"

/-- What follows a command, read off the tokens. -/
theorem readRest_sound {command : Str} {c : Token} {stmt : Statement} (hc : c.type = .Word)
    (ht : c.text = command) (hn : ts.length < n) (h : readRest n command ts = some stmt) :
    Grammar (c :: ts) stmt ∨ SelectForm LooseFrom (c :: ts) stmt := by
  unfold readRest at h
  -- one command after the other; each reads its tokens in order
  split_ifs at h with h1 h2 h3 h4 h5
  · rcases ts with _ | ⟨t, _ | ⟨w, ts⟩⟩
    · cases h
    · cases h
    · have hlen : ts.length < n := by simp only [List.length_cons] at hn; omega
      simp only at h
      split_ifs at h with hk
      obtain ⟨items, hb, rfl⟩ := Option.map_eq_some_iff.1 h
      obtain ⟨o, front, b, ho, hf, hclose, rfl⟩ := (readBracket_iff reads_column hlen).1 hb
      exact Or.inl (.create ⟨hc, ht.trans h1⟩ ⟨hk.1, hk.2.1⟩ hk.2.2 ho hf hclose)
  · rcases ts with _ | ⟨i, _ | ⟨w, _ | ⟨k, ts⟩⟩⟩
    · cases h
    · cases h
    · cases h
    · have hlen : ts.length < n := by simp only [List.length_cons] at hn; omega
      simp only at h
      split_ifs at h with hk
      obtain ⟨items, hb, rfl⟩ := Option.map_eq_some_iff.1 h
      obtain ⟨o, front, b, ho, hf, hclose, rfl⟩ := (readBracket_iff reads_value hlen).1 hb
      exact Or.inl (.insert ⟨hc, ht.trans h2⟩ ⟨hk.1, hk.2.1⟩ hk.2.2.1 hk.2.2.2 ho hf hclose)
  · rcases hr : readSelectColumns n ts with _ | ⟨columns, _ | ⟨f, _ | ⟨w, rest⟩⟩⟩
    · rw [hr] at h; cases h
    · rw [hr] at h; cases h
    · rw [hr] at h; cases h
    · obtain ⟨front, hf, rfl⟩ := readSelectColumns_sound hn hr
      have hrest : rest.length < n := by simp at hn; omega
      rw [hr] at h
      simp only at h
      split_ifs at h with hk
      obtain ⟨wheres, hw, rfl⟩ := Option.map_eq_some_iff.1 h
      exact Or.inr (.mk ⟨hc, ht.trans h3⟩ hf hk.1 hk.2 ((readWhere_iff hrest).1 hw))
  · rcases ts with _ | ⟨w, _ | ⟨s, ts⟩⟩
    · cases h
    · cases h
    · have hlen : ts.length < n := by simp only [List.length_cons] at hn; omega
      simp only at h
      split_ifs at h with hk
      rcases hr : readList readPair n ts with _ | ⟨sets, rest⟩
      · rw [hr] at h; cases h
      rw [hr] at h
      obtain ⟨front, hf, rfl, -⟩ := (readList_iff reads_pair hlen).1 hr
      have hrest : rest.length < n := by simp at hlen; omega
      obtain ⟨wheres, hw, rfl⟩ := Option.map_eq_some_iff.1 h
      exact Or.inl (.update ⟨hc, ht.trans h4⟩ hk.1 ⟨hk.2.1, hk.2.2⟩ hf ((readWhere_iff hrest).1 hw))
  · rcases ts with _ | ⟨f, _ | ⟨w, ts⟩⟩
    · cases h
    · cases h
    · have hlen : ts.length < n := by simp only [List.length_cons] at hn; omega
      simp only at h
      split_ifs at h with hk
      obtain ⟨wheres, hw, rfl⟩ := Option.map_eq_some_iff.1 h
      exact Or.inl (.delete ⟨hc, ht.trans h5⟩ ⟨hk.1, hk.2.1⟩ hk.2.2 ((readWhere_iff hlen).1 hw))

/-- What is read is in the grammar, but that the `FROM` of a select may be quoted. -/
theorem readStatement_sound {stmt : Statement} (hn : ts.length < n)
    (h : readStatement n ts = some stmt) : Grammar ts stmt ∨ SelectForm LooseFrom ts stmt := by
  rcases ts with _ | ⟨c, ts⟩
  · cases h
  · simp only [readStatement] at h
    split_ifs at h with hc
    exact readRest_sound hc rfl (by rw [List.length_cons] at hn; omega) h

/-- A select is read, its `FROM` quoted or not. -/
theorem readStatement_select {isFrom : Token → Prop} {stmt : Statement}
    (hfrom : ∀ t, isFrom t → t.text = str "FROM" ∧ t.type ≠ .Comma) (hn : ts.length < n)
    (h : SelectForm isFrom ts stmt) : readStatement n ts = some stmt := by
  obtain @⟨c, f, w, cols, columns, cond, wheres, hc, hcols, hf, hw, hcond⟩ := h
  have hlen : (cols ++ f :: w :: cond).length < n := by simp at hn ⊢; omega
  have hwhere : readWhere n cond = some wheres := by
    rw [readWhere_iff (by simp at hlen; omega)]; exact hcond
  have hread : readSelectColumns n (cols ++ f :: w :: cond) = some (columns, f :: w :: cond) :=
    readSelectColumns_complete hlen hcols (by simpa using (hfrom f hf).2)
  have hcreate : ¬ str "SELECT" = str "CREATE" := by decide
  have hinsert : ¬ str "SELECT" = str "INSERT" := by decide
  simp only [List.cons_append, readStatement, hc.1, hc.2, if_true, readRest, hcreate, hinsert,
    if_false,
    hread, (hfrom f hf).1, hw, and_self, hwhere, Option.map_some]

/-- The statements of the grammar are read. -/
theorem readStatement_complete {stmt : Statement} (hn : ts.length < n) (h : Grammar ts stmt) :
    readStatement n ts = some stmt := by
  cases h with
  | @create c t w o cols columns b hc ht hw ho hcols hb =>
    have hbr : readBracket readColumn n (o :: cols ++ [b]) = some columns :=
      (readBracket_iff reads_column (by simp at hn ⊢; omega)).2 ⟨o, cols, b, ho, hcols, hb, rfl⟩
    simp only [List.cons_append] at hbr
    simp only [List.cons_append, readStatement, hc.1, hc.2, if_true, readRest, ht.1, ht.2, hw,
      and_self, hbr,
      Option.map_some]
  | @insert c i w k o vals values b hc hi hw hk ho hvals hb =>
    have hbr : readBracket readValue n (o :: vals ++ [b]) = some values :=
      (readBracket_iff reads_value (by simp at hn ⊢; omega)).2 ⟨o, vals, b, ho, hvals, hb, rfl⟩
    have hcreate : ¬ str "INSERT" = str "CREATE" := by decide
    simp only [List.cons_append] at hbr
    simp only [List.cons_append, readStatement, hc.1, hc.2, if_true, readRest, hcreate, if_false,
      hi.1, hi.2,
      hw, hk.1, hk.2, and_self, hbr, Option.map_some]
  | select h =>
    exact readStatement_select (fun t ht => ⟨ht.2, by rw [ht.1]; simp⟩) hn h
  | @update c w s sets values cond wheres hc hw hs hsets hcond =>
    have hwhere : readWhere n cond = some wheres :=
      (readWhere_iff (by simp at hn; omega)).2 hcond
    -- what follows the assignments is no comma, so the list ends there
    have hnot : ∀ t ∈ cond.head?, ¬ t.type = .Comma := by
      rcases hcond with _ | ⟨hk, _⟩
      · simp
      · simp [hk.1]
    have hread : readList readPair n (sets ++ cond) = some (values, cond) :=
      (readList_iff reads_pair (by simp at hn ⊢; omega)).2 ⟨sets, hsets, rfl, hnot⟩
    have hcreate : ¬ str "UPDATE" = str "CREATE" := by decide
    have hinsert : ¬ str "UPDATE" = str "INSERT" := by decide
    have hselect : ¬ str "UPDATE" = str "SELECT" := by decide
    simp only [List.cons_append, readStatement, hc.1, hc.2, if_true, readRest, hcreate,
      hinsert, hselect,
      if_false, hw, hs.1, hs.2, and_self, hread, hwhere, Option.map_some]
  | @delete c f w cond wheres hc hf hw hcond =>
    have hwhere : readWhere n cond = some wheres :=
      (readWhere_iff (by simp at hn; omega)).2 hcond
    have hcreate : ¬ str "DELETE" = str "CREATE" := by decide
    have hinsert : ¬ str "DELETE" = str "INSERT" := by decide
    have hselect : ¬ str "DELETE" = str "SELECT" := by decide
    have hupdate : ¬ str "DELETE" = str "UPDATE" := by decide
    simp only [readStatement, hc.1, hc.2, if_true, readRest, hcreate, hinsert, hselect, hupdate,
      if_false,
      hf.1, hf.2, hw, and_self, hwhere, Option.map_some]

/-- Two readings of a `SELECT` find the same token in the place of `FROM`. -/
theorem SelectForm.from_unique {p q : Token → Prop} {stmt stmt' : Statement}
    (hp : ∀ t, p t → t.type ≠ .Comma) (hq : ∀ t, q t → t.type ≠ .Comma) (h : SelectForm p ts stmt)
    (h' : SelectForm q ts stmt') : ∃ t, p t ∧ q t := by
  obtain @⟨c, f, w, cols, columns, cond, wheres, -, hcols, hf, -, -⟩ := h
  generalize hts : c :: cols ++ f :: w :: cond = ts' at h'
  obtain @⟨c', f', w', cols', columns', cond', wheres', -, hcols', hf', -, -⟩ := h'
  have he : cols ++ f :: w :: cond = cols' ++ f' :: w' :: cond' := (List.cons.inj hts).2
  have hread : readSelectColumns _ (cols ++ f :: w :: cond) = some (columns, f :: w :: cond) :=
    readSelectColumns_complete (Nat.lt_succ_self _) hcols (by simpa using hp f hf)
  have hread' : readSelectColumns _ (cols' ++ f' :: w' :: cond') =
      some (columns', f' :: w' :: cond') :=
    readSelectColumns_complete (Nat.lt_succ_self _) hcols' (by simpa using hq f' hf')
  rw [he, hread'] at hread
  obtain ⟨-, hrest⟩ := Prod.mk.inj (Option.some.inj hread)
  obtain ⟨rfl, -⟩ := List.cons.inj hrest
  exact ⟨f', hf, hf'⟩

/-- With a quoted `FROM` the tokens are no statement. -/
theorem SelectForm.not_grammar {stmt stmt' : Statement} (h : SelectForm Token.QuotedFrom ts stmt) :
    ¬ Grammar ts stmt' := by
  intro hg
  have hquoted : ∀ t : Token, t.QuotedFrom → t.type ≠ .Comma := fun t ht => by rw [ht.1]; simp
  have hsel : ∀ {c : Token} {ts : List Token}, SelectForm Token.QuotedFrom (c :: ts) stmt →
      c.text = str "SELECT" := by
    rintro c ts ⟨hc, -⟩
    exact hc.2
  cases hg with
  | create hc => exact absurd (hc.2.symm.trans (hsel h)) (by decide)
  | insert hc => exact absurd (hc.2.symm.trans (hsel h)) (by decide)
  | update hc => exact absurd (hc.2.symm.trans (hsel h)) (by decide)
  | delete hc => exact absurd (hc.2.symm.trans (hsel h)) (by decide)
  | select hs =>
    obtain ⟨t, ht, ht'⟩ := h.from_unique hquoted (fun t ht => by rw [ht.1]; simp) hs
    exact absurd (ht.1.symm.trans ht'.1) (by simp)

/-- A `SELECT` statement starts with its keyword. -/
theorem SelectForm.head {p : Token → Prop} {stmt : Statement} (h : SelectForm p ts stmt) :
    ∃ c rest, ts = c :: rest ∧ c.Keyword "SELECT" := by
  obtain ⟨hc, -⟩ := h
  exact ⟨_, _, rfl, hc⟩

/-- Where only words and literals have the text `FROM`, it stands in one of the two. -/
theorem SelectForm.word_or_quoted {stmt : Statement}
    (hts : ∀ t ∈ ts, t.text = str "FROM" → t.type = .Word ∨ t.type = .Literal)
    (h : SelectForm LooseFrom ts stmt) :
    SelectForm (Token.Keyword "FROM") ts stmt ∨ SelectForm Token.QuotedFrom ts stmt := by
  obtain @⟨c, f, w, cols, columns, cond, wheres, hc, hcols, hf, hw, hcond⟩ := h
  rcases hts f (by simp) hf with ht | ht
  · exact Or.inl (.mk hc hcols ⟨ht, hf⟩ hw hcond)
  · exact Or.inr (.mk hc hcols ⟨ht, hf⟩ hw hcond)

/-- No statement has the empty object as its JSON. -/
theorem json_ne_object (stmt : Statement) : stmt.json ≠ .object := by
  cases stmt <;> simp [Statement.json, Json.object]

end ToySQL
