import ToySQL.Proof.Reading
import ToySQL.Proof.Stages
import ToySQL.Spec.Visits

/-!
# Writing through any cache

Code that reads and writes through the pointer that `get_page` returned last, and through no
other one, does what it does in a flat memory, whatever the size of the cache.

* `Follows`: a pager whose pages are those of a flat memory, which may change.
* `UsesLast.run`: code with the last pointer does the same on both.
* `Follows.replies`: and so do requests, where insertions find room.
-/

namespace ToySQL

open Program

/-! ## The last pointer -/

/-- The same operation through the last pointer. -/
inductive LastOp : Last → PagerOp Addr → PagerOp ℕ → Prop where
  | read {w : Last} {o : PagerOp Addr} {o' : PagerOp ℕ} : ReadOp w o o' → LastOp w o o'
  | store (a : Addr) (p : ℕ) (l : Loc) (v : ℕ) : LastOp (some (a, p)) (.store a l v) (.store p l v)
  | memcpy (a : Addr) (p : ℕ) (dl sl : Loc) (n : ℕ) :
    LastOp (some (a, p)) (.memcpy a dl a sl n) (.memcpy p dl p sl n)
  | fill (a : Addr) (p : ℕ) (dl : Loc) (n : ℕ) (buffer : Bytes n) :
      LastOp (some (a, p)) (.fill a dl n buffer) (.fill p dl n buffer)

/-- Equal results. -/
def LastRes (w : Last) : (o : PagerOp Addr) → (o' : PagerOp ℕ) → o.Res → o'.Res → Last → Prop
  | .getPage n, .getPage _, a, p, w' => p = n ∧ w' = some (a, p)
  | .load _ _, .load _ _, v, v', w' => v = v' ∧ w' = w
  | _, _, _, _, w' => w' = w

def lastAccess : Pairing (pagerInterface Addr) (pagerInterface ℕ) Last where
  ops := LastOp
  res := LastRes

/-- Code with the last pointer, on the left and on the right. -/
abbrev UsesLast {α α' : Type} (V : Last → α → α' → Prop) (w : Last) (f : Prog Addr α)
    (f' : Prog ℕ α') : Prop :=
  Matches lastAccess V w f f'

section Lemmas

variable {w : Last} {a : Addr} {p n key : ℕ} {α α' β β' : Type} {U : Last → β → β' → Prop}

/-- What only reads the page got last only uses it. -/
theorem ReadsLast.uses {V : Last → α → α' → Prop} {f : Prog Addr α} {f' : Prog ℕ α'}
    (hf : ReadsLast V w f f') :
    UsesLast V w f f' := by
  induction hf with
  | ret hv => exact .ret hv
  | fail => exact .fail
  | @step w o o' k k' ho _ ih =>
    apply Matches.step (LastOp.read ho)
    intro r r' w' hr
    apply ih
    cases ho with
    | getPage n => exact hr
    | load a p l => exact hr

/-- A use that leaves the last page as it is, then more. -/
theorem uses_bind {f : Prog Addr α} {f' : Prog ℕ α} {g : α → Prog Addr β} {g' : α → Prog ℕ β'}
    (hf : UsesLast (Still w) w f f') (hg : ∀ x, UsesLast U w (g x) (g' x)) :
    UsesLast U w (f >>= g) (f' >>= g') := by
  apply hf.bind_values
  rintro x _ _ ⟨rfl, rfl⟩
  exact hg x

/-- After a page was got it is the last one, and used through its own pointer. -/
theorem uses_page {g : Addr → Prog Addr β} {g' : ℕ → Prog ℕ β'} (n : ℕ)
    (hg : ∀ a, UsesLast U (some (a, n)) (g a) (g' n)) :
    UsesLast U w (getPage n >>= g) (getPage n >>= g') := by
  refine .step (LastOp.read (ReadOp.getPage w n)) ?_
  rintro (a : Addr) (q : ℕ) w' ⟨rfl, rfl⟩
  exact hg a

theorem uses_ite {c : Prop} [Decidable c] {f g : Prog Addr β} {f' g' : Prog ℕ β'}
    (hf : UsesLast U w f f') (hg : UsesLast U w g g') :
    UsesLast U w (if c then f else g) (if c then f' else g') := by
  split
  · exact hf
  · exact hg

theorem uses_load (l : Loc) : UsesLast (Still (some (a, p))) (some (a, p)) (load a l) (load p l) :=
  (latest_load l).uses

/-- Writing a field of the page got last. -/
theorem uses_store (l : Loc) (v : ℕ) :
    UsesLast (Still (some (a, p))) (some (a, p)) (store a l v) (store p l v) := by
  refine .step (LastOp.store a p l v) ?_
  rintro _ _ w' rfl
  exact .ret ⟨rfl, rfl⟩

theorem uses_memcpy (dl sl : Loc) (n : ℕ) :
    UsesLast (Still (some (a, p))) (some (a, p)) (memcpy a dl a sl n) (memcpy p dl p sl n) := by
  refine .step (LastOp.memcpy a p dl sl n) ?_
  rintro _ _ w' rfl
  exact .ret ⟨rfl, rfl⟩

theorem uses_fill (l : Loc) {n : ℕ} (buffer : Bytes n) :
    UsesLast (Still (some (a, p))) (some (a, p)) (fill a l buffer) (fill p l buffer) := by
  refine .step (LastOp.fill a p l n buffer) ?_
  rintro _ _ w' rfl
  exact .ret ⟨rfl, rfl⟩

theorem UsesLast.equal {w' : Last} {f : Prog Addr α} {f' : Prog ℕ α}
    (hf : UsesLast (Still w') w f f') : UsesLast Equal w f f' := by
  have hbind : UsesLast Equal w (f >>= fun x => .ret x) (f' >>= fun x => .ret x) := by
    apply hf.bind_values
    rintro x _ _ ⟨rfl, rfl⟩
    exact .ret rfl
  rwa [bind_ret_right, bind_ret_right] at hbind

/-! ## Insertions with room -/

theorem uses_shiftLeafCells (c n : ℕ) :
    UsesLast (Still (some (a, p))) (some (a, p)) (shiftLeafCells a c n) (shiftLeafCells p c n) := by
  induction n with
  | zero => exact .ret ⟨rfl, rfl⟩
  | succ n ih =>
    apply uses_ite
    · exact uses_bind (uses_memcpy _ _ _) fun _ => ih
    · exact .ret ⟨rfl, rfl⟩

/-- An insertion that finds room uses only pages it got last. -/
theorem uses_leafNodeInsertStep (cursor : Cursor) (key : ℕ) (row : Row) (e : Fault) :
    UsesLast Equal w (leafNodeInsertStep cursor key row (fault e))
      (leafNodeInsertStep cursor key row (fault e)) := by
  apply uses_page
  intro a
  apply uses_bind (uses_load _)
  intro numCells
  apply uses_ite .fail
  have hrest : UsesLast Equal (some (a, cursor.pageNum))
      (do
        store a .numCells (u32 ((← load a .numCells) + 1))
        store a (.leafKey cursor.cellNum) key
        fill a (.leafValue cursor.cellNum) row.serialize)
      (do
        store cursor.pageNum .numCells (u32 ((← load cursor.pageNum .numCells) + 1))
        store cursor.pageNum (.leafKey cursor.cellNum) key
        fill cursor.pageNum (.leafValue cursor.cellNum) row.serialize) := by
    apply uses_bind (uses_load _)
    intro numCells
    apply uses_bind (uses_store _ _)
    intro _
    apply uses_bind (uses_store _ _)
    intro _
    exact (uses_fill _ _).equal
  apply uses_ite
  · exact uses_bind (uses_shiftLeafCells _ _) fun _ => hrest
  · exact hrest

/-- `initialize_table` uses only the page it got last. -/
theorem uses_initializeTable : UsesLast Equal w initializeTable initializeTable := by
  apply uses_page
  intro a
  apply uses_bind (uses_store _ _)
  intro _
  apply uses_bind (uses_store _ _)
  intro _
  apply uses_bind (uses_store _ _)
  intro _
  apply uses_bind (uses_store _ _)
  intro _
  apply uses_page
  intro b
  exact (uses_store _ _).equal

/-- An insertion, up to the split of a full leaf. -/
def insertInRoom {P : Type} (fuel : ℕ) (op : Insertion) (e : Fault) : Prog P Unit := do
  let cursor ← tableFind fuel op.key.toNat
  leafNodeInsertStep cursor op.key.toNat op.row (fault e)

end Lemmas

/-! ## Pagers with the pages of a flat memory -/

/-- What getting a page and writing to one keep. -/
structure KeptByUse (I : Pager → Prop) : Prop where
  getPage : KeptByGets I
  setData : ∀ s a data, I s → I (s.setData a data)

/-- The pager has the pages of the flat memory, and the last pointer is the entry of its page. `I`
is whatever else is known of the pager. -/
structure Follows (I : Pager → Prop) (w : Last) (s : Pager) (m : Mem) : Prop where
  wf : s.Wf
  inv : I s
  page : ∀ p < filePagesNum, s.page p = m.page p
  last : ∀ a p, w = some (a, p) → p < filePagesNum ∧ s.cache.pageMap.lookup p = some a

variable {I : Pager → Prop} {w : Last} {s : Pager} {m : Mem} {a : Addr} {p fuel : ℕ}

namespace Follows

theorem data (h : Follows I (some (a, p)) s m) : (s.heap.entry a).data = m.page p := by
  obtain ⟨hp, hlook⟩ := h.last a p rfl
  rw [← Pager.page_of_lookup hlook, h.page p hp]

/-- Writing through the last pointer. -/
theorem setData (hI : KeptByUse I) (h : Follows I (some (a, p)) s m) (data : Page) :
    Follows I (some (a, p)) (s.setData a data) (m.set p data) := by
  obtain ⟨hp, hlook⟩ := h.last a p rfl
  refine ⟨h.wf.setData a data, hI.setData s a data h.inv, fun q hq => ?_, h.last⟩
  rw [h.wf.setData_page hlook, Mem.page_set]
  by_cases hqp : q = p
  · rw [hqp, Function.update_self, Function.update_self]
  · rw [Function.update_of_ne hqp, Function.update_of_ne hqp, h.page q hq]

theorem of_seen {pages : ℕ → Page} (h : Seen I pages w s m) : Follows I w s m := by
  refine ⟨h.wf, h.inv, fun p hp => ?_, h.last⟩
  rw [h.flat]
  exact h.page p hp

theorem seen (h : Follows I w s m) : Seen I m.page w s m := ⟨h.wf, h.inv, h.page, rfl, h.last⟩

/-- **One operation.** -/
theorem step (hI : KeptByUse I) {w : Last} {s : Pager} {m : Mem} {o : PagerOp Addr} {o' : PagerOp ℕ}
    (h : Follows I w s m)
    (ho : LastOp w o o') : Agree (fun w' r r' => LastRes w o o' r r' w') (Follows I)
      (Pager.handler o s) (flatHandler o' m) := by
  cases ho with
  -- reads are those of `Seen`; a write changes one page on both sides
  | read ho =>
    have hres : ∀ {w' : Last} {r : o.Res} {r' : o'.Res}, ReadRes w o o' r r' w' →
        LastRes w o o' r r' w' := by
      intro w' r r' hr
      cases ho with
      | getPage n => exact hr
      | load a p l => exact hr
    have hstep := h.seen.step hI.getPage ho
    revert hstep
    rcases Pager.handler o s with ⟨_ | r, s'⟩ <;> rcases flatHandler o' m with ⟨_ | r', m'⟩
    · rintro ⟨rfl, w', hs⟩
      exact ⟨rfl, w', of_seen hs⟩
    · exact id
    · exact id
    · rintro ⟨w', hr, hs⟩
      exact ⟨w', hres hr, of_seen hs⟩
  | store a p l v =>
    simp only [Pager.handler, Mem.handler, access_iff, h.data]
    split
    · exact ⟨some (a, p), rfl, h.setData hI _⟩
    · exact ⟨rfl, some (a, p), h⟩
  | memcpy a p dl sl n =>
    simp only [Pager.handler, Mem.handler, h.data]
    split
    · exact ⟨some (a, p), rfl, h.setData hI _⟩
    · exact ⟨rfl, some (a, p), h⟩
  | fill a p dl n buffer =>
    simp only [Pager.handler, Mem.handler, h.data]
    split
    · exact ⟨some (a, p), rfl, h.setData hI _⟩
    · exact ⟨rfl, some (a, p), h⟩

end Follows

/-- **Code with the last pointer** does the same on the pager and on its pages. -/
theorem UsesLast.run (hI : KeptByUse I) {α α' : Type} {V : Last → α → α' → Prop} {f : Prog Addr α}
    {f' : Prog ℕ α'}
    (hf : UsesLast V w f f') (h : Follows I w s m) :
    Agree V (Follows I) (f.run Pager.handler s) (f'.run flatHandler m) :=
  hf.simulates (fun _ _ _ _ _ hs ho => hs.step hI ho) h

/-! ## Requests -/

/-- Where the leaf has room, the split does not matter. -/
theorem run_leafNodeInsert_room (h : s.Wf) {cursor : Cursor}
    (hroom : cursor.pageNum < filePagesNum → (s.page cursor.pageNum).numCells < leafNodeMaxCells)
    (key : ℕ) (row : Row) (e : Fault) :
    (leafNodeInsert fuel cursor key row).run Pager.handler s =
      (leafNodeInsertStep cursor key row (fault e)).run Pager.handler s := by
  have hout : ∀ {f : Addr → Prog Addr Unit}, filePagesNum ≤ cursor.pageNum →
      (getPage cursor.pageNum >>= f).run Pager.handler s =
        (.error (.outOfRange "Page number exceeding"), s) := by
    intro f hp
    have hget : (getPage cursor.pageNum).run Pager.handler s =
        (.error (.outOfRange "Page number exceeding"), s) := by
      show Program.run Pager.handler (.step (PagerOp.getPage cursor.pageNum) _) s = _
      simp only [Program.run, Pager.handler, Pager.getPage_of_ge hp]
    rw [run_bind, hget]
  rw [leafNodeInsert_eq_step]
  unfold leafNodeInsertStep
  -- past the file both end at once; otherwise the count read is below 15
  by_cases hp : cursor.pageNum < filePagesNum
  · obtain ⟨a, s', hpage, hgot⟩ := h.getPage_spec hp
    have hget : (getPage cursor.pageNum).run Pager.handler s = (.ok a, s') := by
      show Program.run Pager.handler (.step (PagerOp.getPage cursor.pageNum) _) s = _
      simp only [Program.run, Pager.handler, hpage]
    have hdata : (s'.heap.entry a).data = s.page cursor.pageNum := by
      rw [← hgot.page, Pager.page_of_lookup hgot.found]
    have hload : (load a .numCells).run Pager.handler s' =
        (.ok (s.page cursor.pageNum).numCells, s') := by
      show Program.run Pager.handler (.step (PagerOp.load a .numCells) _) s' = _
      simp only [Program.run, Pager.handler,
        if_pos (by decide : Loc.numCells.offset + Loc.numCells.width ≤ pageSize), hdata]
      rfl
    rw [run_bind, run_bind, hget]
    simp only
    rw [run_bind, run_bind, hload]
    simp only
    rw [if_neg (not_le.2 (hroom hp)), if_neg (not_le.2 (hroom hp))]
  · rw [hout (not_lt.1 hp), hout (not_lt.1 hp)]

/-- The leaf that an insertion finds has room, in the flat memory. -/
def Mem.HasRoom (m : Mem) (fuel : ℕ) : Request → Prop
  | .insert op => ∀ cursor m', (tableFind fuel op.key.toNat).run flatHandler m = (.ok cursor, m') →
      cursor.pageNum < filePagesNum → (m'.page cursor.pageNum).numCells < leafNodeMaxCells
  | _ => True

namespace Follows

/-- A request finds room over the pager as it does over plain pages. -/
theorem hasRoom (hI : KeptByUse I) (h : Follows I w s m) {request : Request}
    (hroom : s.HasRoom fuel request) :
    m.HasRoom fuel request := by
  cases request with
  | insert op =>
    intro cursor m' hrun hp
    have hfind := (latest_tableFind fuel op.key.toNat).uses.run hI h
    rw [hrun] at hfind
    rcases hs : (tableFind fuel op.key.toNat).run Pager.handler s with ⟨_ | cursor', s'⟩
    · rw [hs] at hfind
      exact hfind.elim
    · rw [hs] at hfind
      obtain ⟨w', rfl, h'⟩ := hfind
      have hcells : s.cellsFor fuel op.key.toNat = some (s'.page cursor'.pageNum).numCells := by
        unfold Pager.cellsFor
        rw [hs]
      rw [← h'.page _ hp]
      exact hroom _ hcells
  | newTable | query => trivial

/-- An insertion that finds room. -/
theorem insert (hI : KeptByUse I) (h : Follows I w s m) (op : Insertion)
    (hroom : m.HasRoom fuel (.insert op)) :
    Agree Equal (Follows I) ((insertRow fuel op).run Pager.handler s)
      ((insertInRoom fuel op .noReturn).run flatHandler m) := by
  have hfind := (latest_tableFind fuel op.key.toNat).uses.run hI h
  unfold insertRow insertInRoom
  rw [run_bind, run_bind]
  rcases hs : (tableFind fuel op.key.toNat).run Pager.handler s with ⟨_ | cursor, s'⟩ <;>
    rcases hm : (tableFind fuel op.key.toNat).run flatHandler m with ⟨_ | cursor', m'⟩
  · rwa [hs, hm] at hfind
  · rw [hs, hm] at hfind
    exact hfind.elim
  · rw [hs, hm] at hfind
    exact hfind.elim
  · rw [hs, hm] at hfind
    obtain ⟨w', rfl, h'⟩ := hfind
    simp only
    rw [run_leafNodeInsert_room h'.wf _ _ _ .noReturn]
    · exact (uses_leafNodeInsertStep cursor _ op.row .noReturn).run hI h'
    · intro hp
      rw [h'.page _ hp]
      exact hroom _ m' hm hp

end Follows

/-- What the flat memory replies, up to splits. -/
def flatReply (fuel : ℕ) (m : Mem) : Request → Except Fault Reply × Mem
  | .newTable => andThen (initializeTable.run flatHandler m) fun _ m => (.ok .done, m)
  | .insert op => andThen ((insertInRoom fuel op .noReturn).run flatHandler m) fun _ m =>
    (.ok .done, m)
  | .query query => andThen (answer flatHandler Mem.rowAt fuel m query) fun a m =>
    (.ok (.answer a), m)

def flatReplies (fuel : ℕ) : List Request → Mem → List (Except Fault Reply) × Mem
  | [], m => ([], m)
  | request :: requests, m =>
    let (first, m) := flatReply fuel m request
    let (rest, m) := flatReplies fuel requests m
    (first :: rest, m)

def Mem.Roomy (fuel : ℕ) : List Request → Mem → Prop
  | [], _ => True
  | request :: requests, m => m.HasRoom fuel request ∧
    Roomy fuel requests (flatReply fuel m request).2

namespace Follows

variable {requests : List Request}

/-- A request gets the same reply over the pager as over plain pages. -/
theorem reply (hI : KeptByUse I) (h : Follows I w s m) {request : Request}
    (hroom : m.HasRoom fuel request) :
    Agree Equal (Follows I) (s.reply fuel request) (flatReply fuel m request) := by
  unfold Pager.reply
  cases request with
  | newTable =>
    unfold ToySQL.reply flatReply
    apply agree_andThen (uses_initializeTable.run hI h)
    rintro w₁ _ _ s₁ m₁ - h₁
    exact ⟨w₁, rfl, h₁⟩
  | insert op =>
    unfold ToySQL.reply flatReply
    apply agree_andThen (h.insert hI op hroom)
    rintro w₁ _ _ s₁ m₁ - h₁
    exact ⟨w₁, rfl, h₁⟩
  | query query =>
    -- a query only reads, so the pages stay
    have hanswer : Agree Equal (Follows I) (answer Pager.handler Pager.rowAt fuel s query)
        (answer flatHandler Mem.rowAt fuel m query) := by
      have hseen : Agree Equal (Seen I m.page) (answer Pager.handler Pager.rowAt fuel s query) _ :=
        h.seen.answer hI.getPage query
      revert hseen
      rcases answer Pager.handler Pager.rowAt fuel s query with ⟨_ | a, s'⟩ <;>
        rcases answer flatHandler Mem.rowAt fuel m query with ⟨_ | a', m'⟩
      · rintro ⟨rfl, w', hs⟩
        exact ⟨rfl, w', of_seen hs⟩
      · exact id
      · exact id
      · rintro ⟨w', hr, hs⟩
        exact ⟨w', hr, of_seen hs⟩
    unfold ToySQL.reply flatReply
    apply agree_andThen hanswer
    rintro w₁ a _ s₁ m₁ rfl h₁
    exact ⟨w₁, rfl, h₁⟩

/-- The replies to a request are equal, and the pager still follows the plain pages. -/
theorem reply_eq (hI : KeptByUse I) (h : Follows I w s m) {request : Request}
    (hroom : m.HasRoom fuel request) :
    (s.reply fuel request).1 = (flatReply fuel m request).1 ∧
      ∃ w', Follows I w' (s.reply fuel request).2 (flatReply fuel m request).2 := by
  have hagree := h.reply hI hroom
  revert hagree
  rcases s.reply fuel request with ⟨_ | a, s'⟩ <;> rcases flatReply fuel m request with ⟨_ | a', m'⟩
  · rintro ⟨rfl, hw⟩
    exact ⟨rfl, hw⟩
  · exact False.elim
  · exact False.elim
  · rintro ⟨w', rfl, hs⟩
    exact ⟨rfl, w', hs⟩

/-- A list of requests finds room over the pager as it does over plain pages. -/
theorem roomy (hI : KeptByUse I) (h : Follows I w s m) (hroom : s.Roomy fuel requests) :
    m.Roomy fuel requests := by
  induction requests generalizing w s m with
  | nil => trivial
  | cons request requests ih =>
    have hfirst := h.hasRoom hI hroom.1
    obtain ⟨-, w', h'⟩ := h.reply_eq hI hfirst
    exact ⟨hfirst, ih h' hroom.2⟩

/-- **Requests** get the replies of the flat memory, as long as insertions find room. -/
theorem replies (hI : KeptByUse I) (h : Follows I w s m) (hroom : m.Roomy fuel requests) :
    (s.replies fuel requests).1 = (flatReplies fuel requests m).1 ∧
      ∃ w', Follows I w' (s.replies fuel requests).2 (flatReplies fuel requests m).2 := by
  induction requests generalizing w s m with
  | nil => exact ⟨rfl, w, h⟩
  | cons request requests ih =>
    obtain ⟨hfirst, w', h'⟩ := h.reply_eq hI hroom.1
    obtain ⟨hrest, hlast⟩ := ih h' hroom.2
    refine ⟨?_, hlast⟩
    show (s.reply fuel request).1 :: ((s.reply fuel request).2.replies fuel requests).1 = _
    rw [hfirst, hrest]
    rfl

end Follows

end ToySQL
