import ToySQL.Proof.Rendering

/-!
# The case of keywords

`Alike m ts ts'`: the lists agree, but for the case of words at the positions of `m`.
The grammar does not see the difference where its identifiers are not at positions of
`m` (`Grammar.keywordCase`), hence neither does the parser (`parse_keywordCase`).
-/

namespace ToySQL

/-- Equal tokens, or two spellings of one word. -/
def Token.Alike (t t' : Token) : Prop := t = t' ∨ t.SameWord t'

/-- Lists of equal tokens, but for the spelling of words at the positions of `m`. -/
def Alike : (ℕ → Bool) → List Token → List Token → Prop
  | m, t :: ts, t' :: ts' => (t = t' ∨ m 0 = true ∧ t.SameWord t') ∧
    Alike (fun i => m (i + 1)) ts ts'
  | _, [], [] => True
  | _, _, _ => False

namespace Token.Alike

variable {t t' : Token}

theorem type_eq (h : t.Alike t') : t.type = t'.type := by
  rcases h with rfl | ⟨h, h', -⟩
  · rfl
  · rw [h, h']

/-- Tokens that are alike have one upper case text. -/
theorem text_eq (h : t.Alike t') : t.text = t'.text := by
  rcases h with rfl | ⟨-, -, h⟩
  · rfl
  · exact h

/-- A token like a keyword is the keyword. -/
theorem keyword {w : String} (h : t.Alike t') (ht : t.Keyword w) : t'.Keyword w :=
  ⟨h.type_eq ▸ ht.1, h.text_eq ▸ ht.2⟩

/-- A number or a literal has one spelling. -/
theorem eq_of_type (h : t.Alike t') (ht : t.type ≠ .Word) : t = t' :=
  h.resolve_right fun hw => ht hw.1

end Token.Alike

variable {m : ℕ → Bool} {ts ts' front : List Token}

theorem Alike.cons {t : Token} (h : Alike m (t :: ts) ts') :
    ∃ t' rest, ts' = t' :: rest ∧ t.Alike t' ∧ (m 0 = false → t = t') ∧
      Alike (fun i => m (i + 1)) ts rest := by
  cases ts' with
  | nil => exact h.elim
  | cons t' rest =>
    refine ⟨t', rest, rfl, h.1.imp_right And.right, fun hm => ?_, h.2⟩
    exact h.1.resolve_right fun hw => by rw [hm] at hw; simp at hw

theorem Alike.nil (h : Alike m [] ts') : ts' = [] := by
  cases ts' with
  | nil => rfl
  | cons t' rest => exact h.elim

/-- A list of tokens, and what comes behind it. -/
theorem Alike.append (h : Alike m (front ++ ts) ts') :
    ∃ front' rest, ts' = front' ++ rest ∧ Alike m front front' ∧
      Alike (fun i => m (i + front.length)) ts rest := by
  induction front generalizing m ts' with
  | nil => exact ⟨[], ts', rfl, trivial, h⟩
  | cons t front ih =>
    obtain ⟨t', rest, rfl, -, -, hrest⟩ := Alike.cons h
    obtain ⟨front', rest', rfl, hf, hr⟩ := ih hrest
    refine ⟨t' :: front', rest', rfl, ⟨h.1, hf⟩, ?_⟩
    simpa only [List.length_cons, Nat.add_assoc, Nat.add_comm, Nat.add_left_comm] using hr

/-! ## The items -/

/-- A column whose name stays is a column, whatever the case of its type. -/
theorem ColumnItem.alike {c : Str × Str} (h : ColumnItem front c) (hm : m 0 = false)
    (ha : Alike m front ts') : ColumnItem ts' c := by
  obtain ⟨hw, hin, ht⟩ := h
  obtain ⟨w', rest, rfl, -, hw', ha⟩ := ha.cons
  obtain ⟨t', rest, rfl, ht', -, ha⟩ := ha.cons
  obtain rfl := ha.nil
  obtain rfl := hw' hm
  exact .mk hw hin (ht'.keyword ht)

theorem PairItem.alike {p : Str × Str} (h : PairItem front p) (hm : m 0 = false)
    (ha : Alike m front ts') : PairItem ts' p := by
  obtain ⟨hw, he, hv⟩ := h
  obtain ⟨w', rest, rfl, -, hw', ha⟩ := ha.cons
  obtain ⟨e', rest, rfl, he', -, ha⟩ := ha.cons
  obtain ⟨v', rest, rfl, hv', -, ha⟩ := ha.cons
  obtain rfl := ha.nil
  obtain rfl := hw' hm
  obtain rfl := hv'.eq_of_type (by rcases hv with hv | hv <;> simp [hv])
  exact .mk hw (he'.type_eq ▸ he) hv

/-- A value is no word. -/
theorem ValueItem.alike {v : Str} (h : ValueItem front v) (ha : Alike m front ts') :
    ValueItem ts' v := by
  obtain ⟨hv⟩ := h
  obtain ⟨v', rest, rfl, hv', -, ha⟩ := ha.cons
  obtain rfl := ha.nil
  obtain rfl := hv'.eq_of_type (by rcases hv with hv | hv <;> simp [hv])
  exact .mk hv

/-- A name that stays. -/
theorem WordItem.alike {w : Str} (h : WordItem front w) (hm : m 0 = false)
    (ha : Alike m front ts') :
    WordItem ts' w := by
  obtain ⟨hw⟩ := h
  obtain ⟨w', rest, rfl, -, hw', ha⟩ := ha.cons
  obtain rfl := ha.nil
  obtain rfl := hw' hm
  exact .mk hw

theorem ColumnItem.length {c : Str × Str} (h : ColumnItem front c) : front.length = 2 := by
  cases h; rfl

theorem PairItem.length {p : Str × Str} (h : PairItem front p) : front.length = 3 := by cases h; rfl

theorem WordItem.length {w : Str} (h : WordItem front w) : front.length = 1 := by cases h; rfl

/-- Items of `k` tokens each, whose identifiers come first. -/
theorem commaList_alike {α : Type} (item : List Token → α → Prop) {k : ℕ}
    (hitem : ∀ {m front front' a}, item front a → m 0 = false → Alike m front front' →
      item front' a)
    (hlen : ∀ {front a}, item front a → front.length = k) {as : List α}
    (h : CommaList item front as) :
    ∀ {m front'}, (∀ j, m ((k + 1) * j) = false) → Alike m front front' →
      CommaList item front' as ∧ ∃ j, front.length + 1 = (k + 1) * (j + 1) := by
  induction h with
  | one ha =>
    intro m front' hm halike
    exact ⟨.one (hitem ha (hm 0) halike), 0, by rw [hlen ha, Nat.zero_add, Nat.mul_one]⟩
  | @cons ts a c rest as ha hc _ ih =>
    intro m front' hm halike
    obtain ⟨ts', rest', rfl, hts, hrest⟩ := halike.append
    obtain ⟨c', rest', rfl, hc', -, hrest⟩ := hrest.cons
    have hm' : ∀ j, m ((k + 1) * j + 1 + ts.length) = false := fun j => by
      have hj : (k + 1) * j + 1 + ts.length = (k + 1) * (j + 1) := by rw [hlen ha]; ring
      rw [hj]
      exact hm (j + 1)
    obtain ⟨hlist, j, hj⟩ := ih (m := fun i => m (i + 1 + ts.length)) (fun j => hm' j) hrest
    refine ⟨.cons (hitem ha (hm 0) hts) (hc'.type_eq ▸ hc) hlist, j + 1, ?_⟩
    rw [List.length_append, List.length_cons, hlen ha, Nat.mul_add (k + 1) (j + 1) 1, ← hj]
    omega

/-- The columns of `CREATE`: every third token is a name. -/
theorem columns_alike {columns : List (Str × Str)} (h : CommaList ColumnItem front columns)
    (hm : ∀ j, m (3 * j) = false) (ha : Alike m front ts') : CommaList ColumnItem ts' columns :=
  (commaList_alike ColumnItem (k := 2) ColumnItem.alike ColumnItem.length h hm ha).1

/-- The values of `INSERT` have no keyword. -/
theorem values_alike {values : List Str} (h : CommaList ValueItem front values) :
    ∀ {m ts'}, Alike m front ts' → CommaList ValueItem ts' values := by
  induction h with
  | one hv => intro m ts' ha; exact .one (hv.alike ha)
  | cons hv hc _ ih =>
    intro m ts' ha
    obtain ⟨front', rest', rfl, hf, hr⟩ := ha.append
    obtain ⟨c', rest', rfl, hc', -, hr⟩ := hr.cons
    exact .cons (hv.alike hf) (hc'.type_eq ▸ hc) (ih hr)

/-- Assignments: every fourth token is a name, and the list ends before one. -/
theorem pairs_alike {pairs : List (Str × Str)} (h : CommaList PairItem front pairs)
    (hm : ∀ j, m (4 * j) = false) (ha : Alike m front ts') :
    CommaList PairItem ts' pairs ∧ ∃ j, front.length + 1 = 4 * (j + 1) :=
  commaList_alike PairItem (k := 3) PairItem.alike PairItem.length h hm ha

theorem WhereClause.alike {wheres : List (Str × Str)} (h : WhereClause front wheres)
    (hm : ∀ j, m (4 * j + 1) = false) (ha : Alike m front ts') : WhereClause ts' wheres := by
  cases h with
  | absent => obtain rfl := ha.nil; exact .absent
  | present hk hs =>
    obtain ⟨k', rest, rfl, hk', -, ha⟩ := ha.cons
    exact .present (hk'.keyword hk) (pairs_alike hs hm ha).1

/-- The columns of `SELECT`: every second token is a name. -/
theorem SelectColumns.alike {columns : List Str} (h : SelectColumns front columns)
    (hm : ∀ j, m (2 * j) = false) (ha : Alike m front ts') :
    SelectColumns ts' columns ∧ ∃ j, front.length + 1 = 2 * (j + 1) := by
  cases h with
  | all ht =>
    obtain ⟨t', rest, rfl, ht', -, ha⟩ := ha.cons
    obtain rfl := ha.nil
    exact ⟨.all (ht'.type_eq ▸ ht), 0, rfl⟩
  | some hs =>
    obtain ⟨hs', j, hj⟩ := commaList_alike WordItem (k := 1) WordItem.alike WordItem.length hs hm ha
    exact ⟨.some hs', j, hj⟩

/-! ## The statements -/

/-- The tokens of two layouts of a statement are alike where keywords stand. -/
theorem KeywordCase.alike (h : KeywordCase ts ts') :
    Alike (fun i => ts.head?.any fun c => keywordAt c.text i) ts ts' := by
  have hgen : ∀ (p : ℕ → Bool) (ts ts' : List Token), ts.length = ts'.length →
      (∀ i t t', ts[i]? = some t → ts'[i]? = some t' → t = t' ∨ p i = true ∧ t.SameWord t') →
        Alike p ts ts' := by
    intro p ts
    induction ts generalizing p with
    | nil => intro ts' hlen _; rw [List.length_eq_zero_iff.1 hlen.symm]; trivial
    | cons t ts ih =>
      rintro (_ | ⟨t', ts'⟩) hlen htok
      · cases hlen
      · exact ⟨htok 0 t t' rfl rfl, ih _ ts' (Nat.succ.inj hlen) fun i => htok (i + 1)⟩
  refine hgen _ ts ts' h.length fun i t t' ht ht' => ?_
  exact (h.tokens i t t' ht ht').imp_right fun hw => ⟨(Option.any_eq_true _ _).2 hw.1, hw.2⟩

/-- The same, for the command the statement begins with. -/
theorem KeywordCase.alike_of_command {c : Token} {w : Str} (h : KeywordCase (c :: ts) ts')
    (hc : c.text = w) :
    Alike (keywordAt w) (c :: ts) ts' := by
  rw [← hc]
  exact h.alike

/-! The places of the keywords, command by command. -/

/-- `CREATE TABLE`, and the type of every column. -/
theorem keywordAt_create (i : ℕ) :
    keywordAt (str "CREATE") i = (i = 0 || (i = 1 || (5 ≤ i && i % 3 = 2)) : Bool) := rfl

theorem keywordAt_insert (i : ℕ) : keywordAt (str "INSERT") i =
    (i = 0 || (i = 1 || i = 3) : Bool) := rfl

/-- `SELECT`, and every second token behind it: one of them is `FROM`. -/
theorem keywordAt_select (i : ℕ) : keywordAt (str "SELECT") i = (i = 0 || i % 2 = 0 : Bool) := rfl

/-- `UPDATE`, and the places of `SET` and `WHERE`. -/
theorem keywordAt_update (i : ℕ) : keywordAt (str "UPDATE") i = (i = 0 || i % 4 = 2 : Bool) := rfl

theorem keywordAt_delete (i : ℕ) : keywordAt (str "DELETE") i =
    (i = 0 || (i = 1 || i = 3) : Bool) := rfl

/-- The order of the two does not matter. -/
theorem Token.SameWord.symm {t t' : Token} (h : t.SameWord t') : t'.SameWord t :=
  ⟨h.2.1, h.1, h.2.2.symm⟩

theorem KeywordCase.symm (h : KeywordCase ts ts') : KeywordCase ts' ts := by
  refine ⟨h.length.symm, fun i t t' ht ht' => ?_⟩
  rcases h.tokens i t' t ht' ht with rfl | ⟨⟨c, hc, hk⟩, hw⟩
  · exact Or.inl rfl
  · right
    refine ⟨?_, hw.symm⟩
    obtain ⟨rest, rfl⟩ : ∃ rest, ts = c :: rest := by
      cases ts with
      | nil => cases hc
      | cons d rest => obtain rfl := Option.mem_some_iff.1 hc; exact ⟨rest, rfl⟩
    obtain ⟨c', rest', rfl, hc', -, -⟩ := h.alike.cons
    exact ⟨c', rfl, hc'.text_eq ▸ hk⟩

/-- A `SELECT` stays one, for any reading of its `FROM` that does not look at the case. -/
theorem SelectForm.keywordCase {p : Token → Prop} {stmt : Statement}
    (hp : ∀ {t t' : Token}, t.Alike t' → p t → p t')
    (h : SelectForm p ts stmt) (hc : KeywordCase ts ts') : SelectForm p ts' stmt := by
  obtain @⟨c, f, w, cols, columns, cond, wheres, hsel, hcols, hf, hw, hcond⟩ := h
  have ha := hc.alike_of_command hsel.2
  obtain ⟨c', rest, rfl, hc', -, h1⟩ := ha.cons
  obtain ⟨cols', rest, rfl, hcols', h2⟩ := h1.append
  obtain ⟨hcols', j, hj⟩ := hcols.alike (fun j => by simp [keywordAt_select]) hcols'
  obtain ⟨f', rest, rfl, hf', -, h3⟩ := h2.cons
  obtain ⟨w', cond', rfl, -, hw', h4⟩ := h3.cons
  obtain rfl := hw' (by simp [keywordAt_select]; omega)
  exact .mk (hc'.keyword hsel) hcols' (hp hf' hf) hw
    (hcond.alike (fun j => by simp [keywordAt_select]; omega) h4)

/-- **The grammar does not see the case of keywords.** -/
theorem Grammar.keywordCase {stmt : Statement} (h : Grammar ts stmt) (hc : KeywordCase ts ts') :
    Grammar ts' stmt := by
  -- token by token: keywords stay keywords, names and values stay the same
  cases h with
  | select hs => exact .select (hs.keywordCase (fun ht hk => ht.keyword hk) hc)
  | @create c t w o cols columns b hcmd ht hw ho hcols hb =>
    have ha := hc.alike_of_command hcmd.2
    obtain ⟨c', rest, rfl, hc', -, h1⟩ := ha.cons
    obtain ⟨t', rest, rfl, ht', -, h2⟩ := h1.cons
    obtain ⟨w', rest, rfl, -, hw', h3⟩ := h2.cons
    obtain rfl := hw' (by simp [keywordAt_create])
    obtain ⟨o', rest, rfl, ho', -, h4⟩ := h3.cons
    obtain ⟨cols', rest, rfl, hcols', h5⟩ := h4.append
    obtain ⟨b', rest, rfl, hb', -, h6⟩ := h5.cons
    obtain rfl := h6.nil
    exact .create (hc'.keyword hcmd) (ht'.keyword ht) hw (ho'.type_eq ▸ ho)
      (columns_alike hcols (fun j => by simp [keywordAt_create]; omega) hcols') (hb'.type_eq ▸ hb)
  | @insert c i w k o vals values b hcmd hi hw hk ho hvals hb =>
    have ha := hc.alike_of_command hcmd.2
    obtain ⟨c', rest, rfl, hc', -, h1⟩ := ha.cons
    obtain ⟨i', rest, rfl, hi', -, h2⟩ := h1.cons
    obtain ⟨w', rest, rfl, -, hw', h3⟩ := h2.cons
    obtain rfl := hw' (by simp [keywordAt_insert])
    obtain ⟨k', rest, rfl, hk', -, h4⟩ := h3.cons
    obtain ⟨o', rest, rfl, ho', -, h5⟩ := h4.cons
    obtain ⟨vals', rest, rfl, hvals', h6⟩ := h5.append
    obtain ⟨b', rest, rfl, hb', -, h7⟩ := h6.cons
    obtain rfl := h7.nil
    exact .insert (hc'.keyword hcmd) (hi'.keyword hi) hw (hk'.keyword hk) (ho'.type_eq ▸ ho)
      (values_alike hvals hvals') (hb'.type_eq ▸ hb)
  | @update c w s sets values cond wheres hcmd hw hs hsets hcond =>
    have ha := hc.alike_of_command hcmd.2
    obtain ⟨c', rest, rfl, hc', -, h1⟩ := ha.cons
    obtain ⟨w', rest, rfl, -, hw', h2⟩ := h1.cons
    obtain rfl := hw' (by simp [keywordAt_update])
    obtain ⟨s', rest, rfl, hs', -, h3⟩ := h2.cons
    obtain ⟨sets', cond', rfl, hsets', h4⟩ := h3.append
    obtain ⟨hsets', j, hj⟩ := pairs_alike hsets (fun j => by simp [keywordAt_update]; omega) hsets'
    exact .update (hc'.keyword hcmd) hw (hs'.keyword hs) hsets'
      (hcond.alike (fun j => by simp [keywordAt_update]; omega) h4)
  | @delete c f w cond wheres hcmd hf hw hcond =>
    have ha := hc.alike_of_command hcmd.2
    obtain ⟨c', rest, rfl, hc', -, h1⟩ := ha.cons
    obtain ⟨f', rest, rfl, hf', -, h2⟩ := h1.cons
    obtain ⟨w', cond', rfl, -, hw', h3⟩ := h2.cons
    obtain rfl := hw' (by simp [keywordAt_delete])
    exact .delete (hc'.keyword hcmd) (hf'.keyword hf) hw
      (hcond.alike (fun j => by simp [keywordAt_delete]) h3)

/-! ## The parser -/

/-- What the readers find, as the parser uses them. -/
theorem readStatement_tokensOf {s : Str} {stmt : Statement} :
    readStatement (s.length + 1) (tokensOf s) = some stmt ↔
      Grammar (tokensOf s) stmt ∨ SelectForm Token.QuotedFrom (tokensOf s) stmt := by
  have hn := Nat.lt_succ_of_le (length_tokensOf s)
  constructor
  · intro h
    rcases readStatement_sound hn h with hg | hs
    · exact Or.inl hg
    · exact (hs.word_or_quoted (type_of_from s)).imp_left .select
  · rintro (hg | hs)
    · exact readStatement_complete hn hg
    · exact readStatement_select (fun t ht => ⟨ht.2, by rw [ht.1]; simp⟩) hn hs

theorem Token.QuotedFrom.alike {t t' : Token} (h : t.Alike t') (ht : t.QuotedFrom) :
    t'.QuotedFrom := by
  obtain rfl := h.eq_of_type (by rw [ht.1]; simp)
  exact ht

/-- **The parser does not see the case of keywords.** -/
theorem parse_keywordCase {s s' : Str} (hc : KeywordCase (tokensOf s) (tokensOf s')) :
    Parser.parse s = Parser.parse s' := by
  have hsame : readStatement (s.length + 1) (tokensOf s) =
      readStatement (s'.length + 1) (tokensOf s') := by
    ext stmt
    rw [readStatement_tokensOf, readStatement_tokensOf]
    constructor
    · rintro (hg | hs)
      · exact Or.inl (hg.keywordCase hc)
      · exact Or.inr (hs.keywordCase Token.QuotedFrom.alike hc)
    · rintro (hg | hs)
      · exact Or.inl (hg.keywordCase hc.symm)
      · exact Or.inr (hs.keywordCase Token.QuotedFrom.alike hc.symm)
  rw [Parser.parse_read, Parser.parse_read, hsame]

end ToySQL
