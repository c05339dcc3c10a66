import ToySQL.Proof.Flush
import ToySQL.Proof.Reach
import ToySQL.Spec.Reading

/-!
# Reading through any cache

The functions that only read use no pointer but the one `get_page` returned last. That entry
cannot have left the cache, whatever the size of the cache is.

* `Seen`: a pager whose pages are those of a flat memory.
* `ReadsLast.run`: reading code does the same on both.
* `Seen.answers`: and so do whole sessions of queries.
-/

namespace ToySQL

open Program

/-! ## The last pointer -/

/-- The pointer `get_page` returned last, as an address and as a page number. -/
abbrev Last : Type := Option (Addr × ℕ)

/-- The same reading operation, through the last pointer. -/
inductive ReadOp : Last → PagerOp Addr → PagerOp ℕ → Prop where
  | getPage (w : Last) (n : ℕ) : ReadOp w (.getPage n) (.getPage n)
  | load (a : Addr) (p : ℕ) (l : Loc) : ReadOp (some (a, p)) (.load a l) (.load p l)

/-- Equal results. -/
def ReadRes (w : Last) : (o : PagerOp Addr) → (o' : PagerOp ℕ) → o.Res → o'.Res → Last → Prop
  | .getPage n, .getPage _, a, p, w' => p = n ∧ w' = some (a, p)
  | .load _ _, .load _ _, v, v', w' => v = v' ∧ w' = w
  | _, _, _, _, _ => True

def lastPointer : Pairing (pagerInterface Addr) (pagerInterface ℕ) Last where
  ops := ReadOp
  res := ReadRes

/-- Reading code, on the left and on the right. -/
abbrev ReadsLast {α α' : Type} (V : Last → α → α' → Prop) (w : Last) (f : Prog Addr α)
    (f' : Prog ℕ α') : Prop :=
  Matches lastPointer V w f f'

/-- The operation reads. -/
def IsRead : PagerOp Addr → Prop
  | .getPage _ | .load _ _ => True
  | _ => False

/-- Reading code does nothing else. -/
theorem ReadsLast.reads {α α' : Type} {V : Last → α → α' → Prop} {w : Last} {f : Prog Addr α}
    {f' : Prog ℕ α'}
    (hf : ReadsLast V w f f') : Only IsRead f := by
  induction hf with
  | ret => trivial
  | fail => trivial
  | @step w o o' k k' ho _ ih =>
    cases ho with
    | getPage _ n => exact ⟨trivial, fun a => ih a n (some (a, n)) ⟨rfl, rfl⟩⟩
    | load a p l => exact ⟨trivial, fun v => ih v v (some (a, p)) ⟨rfl, rfl⟩⟩

/-- Equal values, and the last pointer is still `w`. -/
def Still (w : Last) {α : Type} (w' : Last) (x y : α) : Prop := x = y ∧ w' = w

/-- Equal values. -/
def Equal {α : Type} (_ : Last) (x y : α) : Prop := x = y

section Lemmas

variable {w : Last} {a : Addr} {p n key : ℕ} {α β β' : Type} {U : Last → β → β' → Prop}

theorem latest_ret (x : α) : ReadsLast Equal w (.ret x) (.ret x) := .ret rfl

theorem latest_still (x : α) : ReadsLast (Still w) w (.ret x) (.ret x) := .ret ⟨rfl, rfl⟩

theorem latest_fault (e : Fault) {V : Last → β → β' → Prop} : ReadsLast V w (fault e) (fault e) :=
  .fail

/-- A read that leaves the last page as it is, then more. -/
theorem latest_bind {f : Prog Addr α} {f' : Prog ℕ α} {g : α → Prog Addr β} {g' : α → Prog ℕ β'}
    (hf : ReadsLast (Still w) w f f') (hg : ∀ x, ReadsLast U w (g x) (g' x)) :
    ReadsLast U w (f >>= g) (f' >>= g') := by
  apply hf.bind_values
  rintro x _ _ ⟨rfl, rfl⟩
  exact hg x

theorem latest_then {f : Prog Addr α} {f' : Prog ℕ α} {g : α → Prog Addr β} {g' : α → Prog ℕ β'}
    (hf : ReadsLast Equal w f f') (hg : ∀ x w', ReadsLast U w' (g x) (g' x)) :
    ReadsLast U w (f >>= g) (f' >>= g') := by
  apply hf.bind_values
  rintro x _ w' rfl
  exact hg x w'

/-- After a page was got it is the last one, and read through its own pointer. -/
theorem latest_page {g : Addr → Prog Addr β} {g' : ℕ → Prog ℕ β'} (n : ℕ)
    (hg : ∀ a, ReadsLast U (some (a, n)) (g a) (g' n)) :
    ReadsLast U w (getPage n >>= g) (getPage n >>= g') := by
  refine .step (ReadOp.getPage w n) ?_
  rintro (a : Addr) (q : ℕ) w' ⟨rfl, rfl⟩
  exact hg a

theorem latest_ite {c : Prop} [Decidable c] {f g : Prog Addr β} {f' g' : Prog ℕ β'}
    (hf : ReadsLast U w f f') (hg : ReadsLast U w g g') :
    ReadsLast U w (if c then f else g) (if c then f' else g') := by
  split
  · exact hf
  · exact hg

/-- Reading a field of the page got last. -/
theorem latest_load (l : Loc) :
    ReadsLast (Still (some (a, p))) (some (a, p)) (load a l) (load p l) := by
  refine .step (ReadOp.load a p l) ?_
  rintro (v : ℕ) (v' : ℕ) w' ⟨rfl, rfl⟩
  exact latest_still v

/-! ## Nodes -/

theorem latest_getNodeType :
    ReadsLast (Still (some (a, p))) (some (a, p)) (getNodeType a) (getNodeType p) :=
  latest_bind (latest_load _) fun _ => latest_still _

theorem latest_internalNodeChild (n : ℕ) :
    ReadsLast (Still (some (a, p))) (some (a, p)) (internalNodeChild a n)
      (internalNodeChild p n) := by
  apply latest_bind (latest_load _)
  intro numKeys
  apply latest_ite (latest_fault _)
  apply latest_ite
  · exact latest_bind (latest_load _) fun _ => latest_ite (latest_fault _) (latest_still _)
  · exact latest_bind (latest_load _) fun _ => latest_ite (latest_fault _) (latest_still _)

/-- The loop of the binary search reads the page got last. -/
theorem latest_internalNodeFindChildLoop (key : ℕ) : ∀ rounds lo hi ans,
    ReadsLast (Still (some (a, p))) (some (a, p)) (internalNodeFindChildLoop a key rounds lo hi ans)
      (internalNodeFindChildLoop p key rounds lo hi ans) := by
  intro rounds
  induction rounds with
  | zero => exact fun _ _ _ => latest_fault _
  | succ rounds ih =>
    intro lo hi ans
    apply latest_ite
    · apply latest_bind (latest_load _)
      intro keyToRight
      exact latest_ite (latest_ite (latest_still _) (ih _ _ _)) (ih _ _ _)
    · exact latest_still ans

theorem latest_internalNodeFindChild (key : ℕ) :
    ReadsLast (Still (some (a, p))) (some (a, p)) (internalNodeFindChild a key)
      (internalNodeFindChild p key) :=
  latest_bind (latest_load _) fun _ =>
    latest_ite (latest_internalNodeFindChildLoop key _ _ _ _) (latest_still _)

/-- The loop of the binary search reads the page got last. -/
theorem latest_leafNodeFindLoop (key : ℕ) : ∀ rounds lo hi ans,
    ReadsLast (Still (some (a, p))) (some (a, p)) (leafNodeFindLoop a key rounds lo hi ans)
      (leafNodeFindLoop p key rounds lo hi ans) := by
  intro rounds
  induction rounds with
  | zero => exact fun _ _ _ => latest_fault _
  | succ rounds ih =>
    intro lo hi ans
    apply latest_ite
    · apply latest_bind (latest_load _)
      intro keyAtIndex
      apply latest_ite (latest_still _)
      exact latest_ite (latest_ite (latest_still _) (ih _ _ _)) (ih _ _ _)
    · exact latest_still ans

/-! ## Lookups -/

theorem latest_leafNodeFind (n key : ℕ) :
    ReadsLast Equal w (leafNodeFind n key) (leafNodeFind n key) := by
  apply latest_page
  intro a
  apply latest_bind (latest_load _)
  intro numCells
  apply latest_ite (latest_ret _)
  exact latest_bind (latest_leafNodeFindLoop key _ _ _ _) fun _ => latest_ret _

theorem latest_internalNodeFindStep {next : ℕ → Prog Addr Cursor} {next' : ℕ → Prog ℕ Cursor}
    (hnext : ∀ q w', ReadsLast Equal w' (next q) (next' q)) (n key : ℕ) :
    ReadsLast Equal w (internalNodeFindStep next n key) (internalNodeFindStep next' n key) := by
  apply latest_page
  intro a
  apply latest_bind (latest_internalNodeFindChild key)
  intro index
  apply latest_bind (latest_internalNodeChild index)
  intro child
  apply latest_bind (latest_load child)
  intro childNum
  apply latest_page
  intro b
  apply latest_bind latest_getNodeType
  intro t
  cases t with
  | leaf => exact latest_leafNodeFind childNum key
  | internal => exact hnext childNum _
  | other v => exact latest_fault _

theorem latest_internalNodeFind (key : ℕ) : ∀ fuel n {w : Last},
    ReadsLast Equal w (internalNodeFind fuel n key) (internalNodeFind fuel n key) := by
  intro fuel
  induction fuel with
  | zero => exact fun n _ => latest_internalNodeFindStep (fun _ _ => latest_fault _) n key
  | succ fuel ih => exact fun n _ => latest_internalNodeFindStep (fun q _ => ih q) n key

/-- `table_find` reads only pages it got last. -/
theorem latest_tableFind (fuel key : ℕ) :
    ReadsLast Equal w (tableFind fuel key) (tableFind fuel key) := by
  apply latest_page
  intro a
  apply latest_bind latest_getNodeType
  intro t
  cases t with
  | leaf => exact latest_leafNodeFind rootPageNum key
  | internal => exact latest_internalNodeFind key fuel rootPageNum
  | other v => exact latest_fault _

/-! ## Cursors -/

theorem latest_tableStart (fuel : ℕ) : ReadsLast Equal w (tableStart fuel) (tableStart fuel) := by
  apply latest_then (latest_tableFind fuel 0)
  intro cursor w'
  apply latest_page
  intro a
  exact latest_bind (latest_load _) fun _ => latest_ret _

theorem latest_advance (cursor : Cursor) : ReadsLast Equal w cursor.advance cursor.advance := by
  apply latest_page
  intro a
  apply latest_bind (latest_load _)
  intro numCells
  apply latest_ite
  · apply latest_bind (latest_load _)
    intro nextPageNum
    exact latest_ite (latest_ret _) (latest_ret _)
  · exact latest_ret _

/-- The loop of `select` reads only pages it got last. -/
theorem latest_scanFrom : ∀ steps cursor {w : Last},
    ReadsLast Equal w (scanFrom steps cursor) (scanFrom steps cursor) := by
  intro steps
  induction steps with
  | zero => exact fun _ _ => latest_fault _
  | succ steps ih =>
    intro cursor w
    apply latest_ite (latest_ret _)
    apply latest_page
    intro a
    apply latest_bind (latest_load _)
    intro key
    apply latest_then (latest_advance cursor)
    intro next w'
    exact latest_then (ih next) fun _ _ => latest_ret _

theorem latest_scan (fuel steps : ℕ) : ReadsLast Equal w (scan fuel steps) (scan fuel steps) :=
  latest_then (latest_tableStart fuel) fun cursor _ => latest_scanFrom steps cursor

/-- The value of a cursor is a place behind the last pointer. -/
theorem latest_value (cursor : Cursor) :
    ReadsLast (fun w' x y => w' = some (x.1, y.1) ∧ x.2 = y.2) w (cursor.value : Prog Addr _)
      (cursor.value : Prog ℕ _) := by
  apply latest_page
  intro a
  exact Matches.ret ⟨rfl, rfl⟩

end Lemmas

/-! ## Pagers with the same pages -/

/-- What getting a page keeps. -/
def KeptByGets (I : Pager → Prop) : Prop := ∀ s p, s.Wf → I s → p < filePagesNum → I (s.getPage p).2

/-- The pager and the flat memory have the pages `pages`, and the last pointer is the entry of
its page. `I` is whatever else is known of the pager. -/
structure Seen (I : Pager → Prop) (pages : ℕ → Page) (w : Last) (s : Pager) (m : Mem) : Prop where
  wf : s.Wf
  inv : I s
  page : ∀ p < filePagesNum, s.page p = pages p
  flat : m.page = pages
  last : ∀ a p, w = some (a, p) → p < filePagesNum ∧ s.cache.pageMap.lookup p = some a

variable {I : Pager → Prop} {pages : ℕ → Page} {w : Last} {s s' : Pager} {m : Mem} {a : Addr}
    {p fuel : ℕ}

/-- The flat memory that answers for the pagers. -/
abbrev flatHandler : Handler (pagerInterface ℕ) Fault Mem := Mem.handler (fun _ => True) OfFile

/-- A field that lies in the page may be read. -/
theorem access_iff {data : Page} {l : Loc} :
    Mem.Access (fun _ => True) data l ↔ l.offset + l.width ≤ pageSize :=
  ⟨And.left, fun h => ⟨h, fun _ _ _ => trivial⟩⟩

namespace Seen

theorem data (h : Seen I pages (some (a, p)) s m) : (s.heap.entry a).data = m.page p := by
  obtain ⟨hp, hlook⟩ := h.last a p rfl
  rw [← Pager.page_of_lookup hlook, h.page p hp, h.flat]

/-- **One operation.** -/
theorem step (hI : KeptByGets I) {w : Last} {s : Pager} {m : Mem} {o : PagerOp Addr}
    {o' : PagerOp ℕ} (h : Seen I pages w s m)
    (ho : ReadOp w o o') : Agree (fun w' r r' => ReadRes w o o' r r' w') (Seen I pages)
      (Pager.handler o s) (flatHandler o' m) := by
  cases ho with
  | getPage _ n =>
    by_cases hn : n < filePagesNum
    · have hinv := hI s n h.wf h.inv hn
      obtain ⟨a, s', hget, hgot⟩ := h.wf.getPage_spec hn
      rw [hget] at hinv
      simp only [Pager.handler, hget, Mem.handler, if_pos hn]
      refine ⟨some (a, n), ⟨rfl, rfl⟩, hgot.wf, hinv, fun p hp => ?_, ?_, fun b p hw => ?_⟩
      · rw [hgot.page]
        exact h.page p hp
      · rw [Mem.page_touch]
        exact h.flat
      · obtain ⟨rfl, rfl⟩ := Prod.mk.inj (Option.some.inj hw)
        exact ⟨hn, hgot.found⟩
    · have hout : s.getPage n = (.error (.outOfRange "Page number exceeding"), s) :=
        if_pos (not_lt.1 hn)
      simp only [Pager.handler, hout, Mem.handler, if_neg hn]
      exact ⟨rfl, w, h⟩
  | load a p l =>
    simp only [Pager.handler, Mem.handler, access_iff, h.data]
    split
    · exact ⟨some (a, p), ⟨rfl, rfl⟩, h⟩
    · exact ⟨rfl, some (a, p), h⟩

end Seen

/-- **Reading code** does the same on the pager and on its pages. -/
theorem ReadsLast.run (hI : KeptByGets I) {α α' : Type} {V : Last → α → α' → Prop} {f : Prog Addr α}
    {f' : Prog ℕ α'}
    (hf : ReadsLast V w f f') (h : Seen I pages w s m) :
    Agree V (Seen I pages) (f.run Pager.handler s) (f'.run flatHandler m) :=
  hf.simulates (fun _ _ _ _ _ hs ho => hs.step hI ho) h

/-- Agreement of two runs goes on past their results. -/
theorem agree_andThen {W ε α α' β β' σ τ : Type} {V : W → α → α' → Prop} {U : W → β → β' → Prop}
    {S : W → σ → τ → Prop}
    {o : Except ε α × σ} {o' : Except ε α' × τ} {f : α → σ → Except ε β × σ}
    {f' : α' → τ → Except ε β' × τ}
    (h : Agree V S o o') (hf : ∀ w a a' s t, V w a a' → S w s t → Agree U S (f a s) (f' a' t)) :
    Agree U S (andThen o f) (andThen o' f') := by
  rcases o with ⟨e | a, s⟩ <;> rcases o' with ⟨e' | a', t⟩
  · exact h
  · exact h.elim
  · exact h.elim
  · obtain ⟨w, hv, hs⟩ := h
    exact hf w a a' s t hv hs

/-- The `Row` seen at a place of a page. -/
def Mem.rowAt (m : Mem) (p : ℕ) (l : Loc) : Row := Row.ofMemory ((m.page p).slice l.offset rowSize)

namespace Seen

/-- The loop of a select gives the same rows over the pager as over plain pages. -/
theorem selectFrom (hI : KeptByGets I) :
    ∀ steps cursor {w : Last} {s : Pager} {m : Mem}, Seen I pages w s m →
    Agree Equal (Seen I pages) (selectFrom Pager.handler Pager.rowAt steps cursor s)
      (selectFrom flatHandler Mem.rowAt steps cursor m) := by
  intro steps
  induction steps with
  | zero => exact fun _ w _ _ h => ⟨rfl, w, h⟩
  | succ steps ih =>
    intro cursor w s m h
    unfold ToySQL.selectFrom
    split
    · exact ⟨w, rfl, h⟩
    · apply agree_andThen ((latest_value cursor).run hI h)
      rintro w₁ ⟨a, l⟩ ⟨p, l'⟩ s₁ m₁ ⟨rfl, rfl⟩ h₁
      -- the value is read before the cursor gets its page again
      have hrow : s₁.rowAt a l = m₁.rowAt p l := by
        unfold Pager.rowAt Mem.rowAt
        rw [h₁.data]
      simp only [hrow]
      split
      · apply agree_andThen ((latest_advance cursor).run hI h₁)
        rintro w₂ next _ s₂ m₂ rfl h₂
        apply agree_andThen (ih next h₂)
        rintro w₃ rows _ s₃ m₃ rfl h₃
        exact ⟨w₃, rfl, h₃⟩
      · exact ⟨rfl, some (a, p), h₁⟩

/-- A select gives the same rows over the pager as over plain pages. -/
theorem selectAll (hI : KeptByGets I) (steps : ℕ) (h : Seen I pages w s m) :
    Agree Equal (Seen I pages) (selectAll Pager.handler Pager.rowAt fuel steps s)
      (selectAll flatHandler Mem.rowAt fuel steps m) := by
  apply agree_andThen ((latest_tableStart fuel).run hI h)
  rintro w₁ cursor _ s₁ m₁ rfl h₁
  exact h₁.selectFrom hI steps cursor

/-- A query gets the same answer over the pager as over plain pages. -/
theorem answer (hI : KeptByGets I) (query : Query) (h : Seen I pages w s m) :
    Agree Equal (Seen I pages) (answer Pager.handler Pager.rowAt fuel s query)
      (answer flatHandler Mem.rowAt fuel m query) := by
  cases query with
  | find key =>
    apply agree_andThen ((latest_tableFind fuel key).run hI h)
    rintro w₁ cursor _ s₁ m₁ rfl h₁
    exact ⟨w₁, rfl, h₁⟩
  | scan steps =>
    apply agree_andThen ((latest_scan fuel steps).run hI h)
    rintro w₁ keys _ s₁ m₁ rfl h₁
    exact ⟨w₁, rfl, h₁⟩
  | select steps =>
    apply agree_andThen (h.selectAll hI steps)
    rintro w₁ rows _ s₁ m₁ rfl h₁
    exact ⟨w₁, rfl, h₁⟩

/-- **Whatever is asked**, the pager answers as its pages do, and has them still. -/
theorem answers (hI : KeptByGets I) (queries : List Query) (h : Seen I pages w s m) :
    (s.answers fuel queries).1 = (answers flatHandler Mem.rowAt fuel queries m).1 ∧
      ∃ w m', Seen I pages w (s.answers fuel queries).2 m' := by
  unfold Pager.answers
  induction queries generalizing w s m with
  | nil => exact ⟨rfl, w, m, h⟩
  | cons query queries ih =>
    have hfirst : Agree Equal (Seen I pages)
        (ToySQL.answer Pager.handler Pager.rowAt fuel s query) _ := h.answer hI query
    unfold ToySQL.answers
    rcases hs : ToySQL.answer Pager.handler Pager.rowAt fuel s query with ⟨r, s₁⟩
    rcases hm : ToySQL.answer flatHandler Mem.rowAt fuel m query with ⟨r', m₁⟩
    rw [hs, hm] at hfirst
    obtain ⟨rfl, w₁, h₁⟩ : r = r' ∧ ∃ w, Seen I pages w s₁ m₁ := by
      rcases r with e | a <;> rcases r' with e' | a'
      · exact ⟨congrArg _ hfirst.1, hfirst.2⟩
      · exact hfirst.elim
      · exact hfirst.elim
      · obtain ⟨w₁, hv, h₁⟩ := hfirst
        exact ⟨congrArg _ hv, w₁, h₁⟩
    obtain ⟨hrest, hlast⟩ := ih h₁
    exact ⟨congrArg _ hrest, hlast⟩

end Seen

/-! ## The file behind the pages -/

namespace Pager

/-- Writing a page lengthens no file that has it. -/
theorem write_size {f : FStream} (hf : f.Works) (hp : p < filePagesNum)
    (hsize : f.file.size = filePagesNum * pageSize)
    (data : Page) :
    ((f.seekp (u32 (p * pageSize))).write data).file.size = filePagesNum * pageSize := by
  rw [FStream.u32_page hp, hf.seekp]
  unfold FStream.write
  simp only [hf.eof, hf.fail, Bool.or_false, Bool.false_eq_true, if_false]
  show max f.file.size (p * pageSize + pageSize) = _
  unfold filePagesNum at hp hsize ⊢
  unfold pageSize at hsize ⊢
  omega

/-- The stream after a page was got. -/
theorem getPage_stream (h : s.Wf) (hp : p < filePagesNum) : ∃ f :
    FStream, f.Works ∧ f.file = s.file.file ∧
    ((s.getPage p).2.file.file = f.file ∨
      ∃ lru ∈ s.cache.lruList, (s.getPage p).2.file =
        (f.seekp (u32 ((s.heap.entry lru).pageNum * pageSize))).write (s.heap.entry lru).data) := by
  have hgets := h.toCached.gets hp
  generalize s.getPage p = o at hgets ⊢
  obtain ⟨r, s'⟩ := o
  cases hgets with
  | hit _ => exact ⟨s.file, h.file.toWorks, rfl, Or.inl rfl⟩
  | failed _ hfail =>
    rw [h.file.fail] at hfail
    cases hfail
  | added hl _ hread hroom =>
    obtain ⟨_, hread', hf, hfile⟩ :=
      h.file.toWorks.read_page hp (h.file.holds hp) (s.uninit s.heap.length)
    rw [hread] at hread'
    obtain ⟨rfl, rfl⟩ := Prod.mk.inj hread'
    cases hroom with
    | keep _ => exact ⟨_, hf, hfile, Or.inl rfl⟩
    | evict hlist _ =>
      exact ⟨_, hf, hfile,
        Or.inr ⟨_, by rw [hlist]; exact List.mem_append_right _ List.mem_cons_self, rfl⟩⟩

/-- The file has exactly the pages. -/
def Exact (s : Pager) : Prop := s.file.file.size = filePagesNum * pageSize

/-- The file has the contents of all pages. -/
def UpToDate (s : Pager) : Prop := ∀ p < filePagesNum, s.file.page p = s.page p

theorem exact_getPage : KeptByGets Exact := by
  intro s p h hsize hp
  obtain ⟨f, hf, hfile, hkept | ⟨lru, hlru, hevicted⟩⟩ := getPage_stream h hp
  · unfold Exact
    rw [hkept, hfile]
    exact hsize
  · unfold Exact
    rw [hevicted]
    exact write_size hf (h.lt lru hlru).2 (by rw [hfile]; exact hsize) _

/-- A page that is evicted was read from its place in the file, and goes back there. -/
theorem upToDate_getPage : KeptByGets UpToDate := by
  intro s p h hfile hp q hq
  have hpage : (s.getPage p).2.page = s.page := by
    obtain ⟨a, s', hget, hgot⟩ := h.getPage_spec hp
    rw [hget]
    exact hgot.page
  rw [hpage, ← hfile q hq]
  obtain ⟨f, hf, hsame, hkept | ⟨lru, hlru, hevicted⟩⟩ := getPage_stream h hp
  · unfold FStream.page
    rw [hkept, hsame]
  · rw [hevicted, (hf.write_page (h.lt lru hlru).2 _).2.2 q]
    split
    · rename_i hlast
      rw [hfile q hq, hlast, page_of_lookup ((h.lookup _ lru).2 ⟨hlru, rfl⟩)]
    · unfold FStream.page
      rw [hsame]

theorem exact_flush (h : s.Sound) (hs : s.Exact) (ha : a ∈ s.cache.lruList) :
    (s.flush a).Exact := by
  unfold flush
  split
  · exact write_size h.works (h.lt a ha).2 hs _
  · exact hs

theorem exact_flushList {l : List Addr} (hl : ∀ a ∈ l, a ∈ s.cache.lruList) (h : s.Sound)
    (hs : s.Exact) :
    (s.flushList l).Exact := by
  induction l generalizing s with
  | nil => exact hs
  | cons a l ih =>
    have ha := hl a List.mem_cons_self
    rw [flushList_cons]
    apply ih
    · intro b hb
      rw [flush_cache]
      exact hl b (List.mem_cons_of_mem a hb)
    · exact h.flush ha
    · exact exact_flush h hs ha

/-! ### Opening -/

variable {file : File} {c : ℕ} {uninit : Addr → Page}

/-- Over a file of all pages, or an empty one, the pager starts well formed. -/
theorem init_wf (hfile : u32 file.size = 0 ∨ filePagesNum * pageSize ≤ file.size) :
    (Pager.init file c uninit).Wf := by
  obtain ⟨hworks, hsize, -⟩ := init_file_spec file c uninit
  refine ⟨init_cached file c uninit, hworks, ?_⟩
  by_cases h0 : u32 file.size = 0
  · have hworks' : (FStream.mk file 0 false false).Works := ⟨rfl, rfl⟩
    unfold Pager.init
    simp only [if_pos h0]
    rw [hworks'.seekp]
    exact (Nat.le_add_left _ _).trans (le_max_right _ _)
  · exact (hfile.resolve_left h0).trans hsize

/-- No page is cached when a file is opened. -/
theorem init_upToDate : (Pager.init file c uninit).UpToDate :=
  fun p _ => (page_of_none (AList.lookup_empty p)).symm

end Pager

end ToySQL
