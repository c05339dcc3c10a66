import ToySQL.Main.Reading
import ToySQL.Proof.Visits

/-!
# Opening a table again and again

* `visits_eq`: as long as insertions find room in their leaves, a table that is flushed, closed and
  opened again between the requests, each time with a cache of any size, replies as one table over
  one cache does, and has the same pages in the end.
-/

namespace ToySQL

open Program

variable {fuel : ℕ} {file : File} {s : Pager} {m : Mem} {requests : List Request} {vs : List Visit}

/-! ## A visit -/

theorem kept_unflushed : KeptByUse Pager.Unflushed := by
  refine ⟨fun s p _ hs hp => ?_, fun s a data hs => ⟨hs.toAllDirty.setData a data, hs.exact⟩⟩
  exact hs.step (.getPage p)

/-- The file of a table: it is new, or it has just the pages. -/
def File.Table (file : File) : Prop := file.size = 0 ∨ file.size = filePagesNum * pageSize

/-- The file opens with the pages of the flat memory. -/
structure Holds (file : File) (m : Mem) : Prop where
  table : file.Table
  page : ∀ c uninit, ∀ p < filePagesNum, (Pager.init file c uninit).page p = m.page p

theorem File.Table.unflushed (h : file.Table) (c : ℕ) (uninit : Addr → Page) :
    (Pager.init file c uninit).Unflushed := by
  have hwf : (Pager.init file c uninit).Wf := by
    apply Pager.init_wf
    rcases h with h | h
    · rw [h]
      exact Or.inl rfl
    · exact Or.inr h.ge
  refine ⟨⟨hwf, fun a ha => absurd ha List.not_mem_nil⟩, ?_⟩
  have hworks : (FStream.mk file 0 false false).Works := ⟨rfl, rfl⟩
  unfold Pager.Exact Pager.init
  rcases h with h | h
  · rw [h, if_pos (by decide : u32 0 = 0), hworks.seekp]
    show max file.size (0 + filePagesNum * pageSize) = _
    rw [h, Nat.zero_max, Nat.zero_add]
  · rw [h, if_neg (by decide : ¬ u32 (filePagesNum * pageSize) = 0)]
    exact h

/-- A pager over the closed file follows the pages the file holds. -/
theorem Holds.follows (h : Holds file m) (c : ℕ) (uninit : Addr → Page) :
    Follows Pager.Unflushed none (Pager.init file c uninit) m := by
  have hun := h.table.unflushed c uninit
  exact ⟨hun.toWf, hun, h.page c uninit, fun _ _ hw => by cases hw⟩

/-- The file that is closed has the pages. -/
theorem Follows.close {w : Last} (h : Follows Pager.Unflushed w s m) : Holds s.close m := by
  refine ⟨Or.inr (Pager.exact_flushList (fun _ => id) h.wf.sound h.inv.exact),
    fun c uninit p hp => ?_⟩
  rw [(h.inv.close c uninit).2 p hp, h.page p hp]

/-- **One visit** does what its requests do in the flat memory. -/
theorem Holds.visit (h : Holds file m) (v : Visit) (hroom : m.Roomy fuel v.requests) :
    (file.visit fuel v).1 = (flatReplies fuel v.requests m).1 ∧
      Holds (file.visit fuel v).2 (flatReplies fuel v.requests m).2 := by
  obtain ⟨heq, w', hlast⟩ := (h.follows v.cacheSize v.uninit).replies kept_unflushed hroom
  exact ⟨heq, hlast.close⟩

/-! ## Visits one after the other -/

theorem flatReplies_cons (r : Request) (rs : List Request) (m : Mem) :
    flatReplies fuel (r :: rs) m =
    ((flatReply fuel m r).1 :: (flatReplies fuel rs (flatReply fuel m r).2).1,
      (flatReplies fuel rs (flatReply fuel m r).2).2) := rfl

/-- Two lists of requests, one after the other. -/
theorem flatReplies_append (rs rs' : List Request) (m : Mem) : flatReplies fuel (rs ++ rs') m =
    ((flatReplies fuel rs m).1 ++ (flatReplies fuel rs' (flatReplies fuel rs m).2).1,
      (flatReplies fuel rs' (flatReplies fuel rs m).2).2) := by
  induction rs generalizing m with
  | nil => rfl
  | cons r rs ih =>
    rw [List.cons_append, flatReplies_cons, flatReplies_cons, ih]
    rfl

/-- A list of requests finds room if its first part does, and then its second. -/
theorem roomy_append {rs rs' : List Request} (h : m.Roomy fuel (rs ++ rs')) :
    m.Roomy fuel rs ∧ (flatReplies fuel rs m).2.Roomy fuel rs' := by
  induction rs generalizing m with
  | nil => exact ⟨trivial, h⟩
  | cons r rs ih =>
    obtain ⟨hfirst, hrest⟩ := ih h.2
    exact ⟨⟨h.1, hfirst⟩, hrest⟩

/-- Visits reply as one session does, and the file holds its pages. By induction on the visits. -/
theorem Holds.visits (h : Holds file m) (hroom : m.Roomy fuel (vs.flatMap (·.requests))) :
    (file.visits fuel vs).1 = (flatReplies fuel (vs.flatMap (·.requests)) m).1 ∧
      Holds (file.visits fuel vs).2 (flatReplies fuel (vs.flatMap (·.requests)) m).2 := by
  induction vs generalizing file m with
  | nil => exact ⟨rfl, h⟩
  | cons v vs ih =>
    rw [List.flatMap_cons] at hroom ⊢
    obtain ⟨hfirst, hrest⟩ := roomy_append hroom
    obtain ⟨heq, hvisit⟩ := h.visit v hfirst
    obtain ⟨heq', hlast⟩ := ih hvisit hrest
    rw [flatReplies_append]
    refine ⟨?_, hlast⟩
    show (file.visit fuel v).1 ++ (File.visits fuel (file.visit fuel v).2 vs).1 = _
    rw [heq, heq']

/-- **Opening a table again and again** makes no difference, whatever the sizes of the caches are,
as long as no insertion meets a full leaf: the replies are those of a single session, and so are the
pages in the end. -/
theorem visits_eq (file : File) (hfile : file.Table) (c fuel : ℕ) (uninit : Addr → Page)
    (vs : List Visit)
    (hroom : (Pager.init file c uninit).Roomy fuel (vs.flatMap (·.requests))) :
    (file.visits fuel vs).1 =
      ((Pager.init file c uninit).replies fuel (vs.flatMap (·.requests))).1 ∧
      ∀ c' uninit', ∀ p < filePagesNum, (Pager.init (file.visits fuel vs).2 c' uninit').page p =
        ((Pager.init file c uninit).replies fuel (vs.flatMap (·.requests))).2.page p := by
  have hholds : Holds file ⟨(Pager.init file c uninit).page, fun _ => false, 0⟩ := by
    refine ⟨hfile, fun c' uninit' p hp => ?_⟩
    rw [Pager.init_page file c' uninit' hp]
    exact (Pager.init_page file c uninit hp).symm
  have hfollows := hholds.follows c uninit
  have hroom' := hfollows.roomy kept_unflushed hroom
  obtain ⟨heq, hlast⟩ := hholds.visits hroom'
  obtain ⟨heq', w', hsingle⟩ := hfollows.replies kept_unflushed hroom'
  refine ⟨heq.trans heq'.symm, fun c' uninit' p hp => ?_⟩
  rw [hlast.page c' uninit' p hp, hsingle.page p hp]

/-- A table is made and gets a row, then another one with a cache for no page, and then it is read.
-/
def threeVisits : List Visit :=
  [⟨1, fun _ => Bytes.zero pageSize, [.newTable, .insert (plain 1)]⟩,
    ⟨0, fun _ => Bytes.zero pageSize, [.insert (plain 2)]⟩,
    ⟨2, fun _ => Bytes.zero pageSize, [.query (.select 3)]⟩]

theorem visits_eq_three :
    (File.empty.visits 1 threeVisits).1 =
        ((Pager.init File.empty filePagesNum fun _ => Bytes.zero pageSize).replies 1
          (threeVisits.flatMap (·.requests))).1 ∧
      ∀ c' uninit', ∀ p < filePagesNum,
      (Pager.init (File.empty.visits 1 threeVisits).2 c' uninit').page p =
        ((Pager.init File.empty filePagesNum fun _ => Bytes.zero pageSize).replies 1
          (threeVisits.flatMap (·.requests))).2.page p := by
  apply visits_eq File.empty (Or.inl rfl) filePagesNum 1 (fun _ => Bytes.zero pageSize) threeVisits
  rw [Pager.init_eq_new]
  decide +kernel

end ToySQL
