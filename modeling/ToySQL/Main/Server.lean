import ToySQL.Main.Connection
import ToySQL.Main.WorkQueue
import ToySQL.Spec.Server

/-!
# The server keeps its connections apart

Over every interleaving of the main thread and the workers:

* `Server.Run.owned`: an accepted connection is in one place, the items are taken in the order of
  acceptance, a socket is open as long as its item lives, and it is closed once and not used then.
* `Server.Run.answered`: what a connection is answered is what `ConnectionHandler::run` answers it
  alone.
* `Server.Run.served`: while there is an item in the queue or in the hands of a worker, some
  worker can go on, and with no more than `accepted` connections there is a bound on their work.
* `Server.Run.sequential`: the one worker that `main` starts serves a connection to its end
  before it takes the next one.
-/

namespace ToySQL

open WQueue

variable {τ : Type} {events es es' : List (ServerEvent τ)} {conn : ℕ} {item : WorkItem} {t : τ}

/-! ## Observations -/

theorem queueEvents_append : queueEvents (es ++ es') = queueEvents es ++ queueEvents es' :=
  List.filterMap_append

theorem acceptedItems_append : acceptedItems (es ++ es') = acceptedItems es ++ acceptedItems es' :=
  List.filterMap_append

theorem closedItems_append : closedItems (es ++ es') = closedItems es ++ closedItems es' :=
  List.filterMap_append

theorem answersOn_append : answersOn (es ++ es') conn = answersOn es conn ++ answersOn es' conn :=
  List.filterMap_append

theorem takenItems_append : takenItems (es ++ es') = takenItems es ++ takenItems es' := by
  unfold takenItems
  rw [queueEvents_append, removed_append]

namespace Server

variable [DecidableEq τ] {J : JsonText} {net : ℕ → List Str} {s s' : Server τ}
    {event : ServerEvent τ}

/-- The sections of the queue are a run of the queue. -/
theorem Run.queueRun (h : Run J net events s) : WQueue.Run (queueEvents events) s.queue := by
  induction h with
  | start => exact WQueue.Run.start
  | @step events s event s' _ hstep ih =>
    rw [queueEvents_append]
    cases hstep with
    | add _ _ hq => exact ih.step hq
    | wake _ hq => exact ih.step hq
    | wait _ _ hq => exact ih.step hq
    | remove _ _ hq => exact ih.step hq
    | accept | acceptFailed | answer | escape | sigpipe | close | badSocket =>
      exact (List.append_nil (queueEvents events)).symm ▸ ih

/-- Every accepted connection was added, but for the one the main thread has in its hands. -/
theorem Run.accepted (h : Run J net events s) :
    acceptedItems events = added (queueEvents events) ++ s.item.toList ∧
    (acceptedItems events).map WorkItem.conn = List.range s.accepted := by
  induction h with
  | start => exact ⟨rfl, rfl⟩
  | @step events s event s' _ hstep ih =>
    obtain ⟨hadded, hconn⟩ := ih
    rw [acceptedItems_append, queueEvents_append, added_append, List.map_append, hconn]
    cases hstep with
    | @accept sd _ hitem _ =>
      rw [hitem, Option.toList_none, List.append_nil] at hadded
      refine ⟨?_, List.range_succ.symm⟩
      rw [hadded]
      simp [acceptedItems, queueEvents, added]
    | @add item queue _ hitem _ =>
      rw [hitem] at hadded
      refine ⟨?_, List.append_nil _⟩
      rw [hadded]
      simp [acceptedItems, queueEvents, added]
    | acceptFailed | wake | wait | remove | answer | escape | sigpipe | close | badSocket =>
      refine ⟨?_, List.append_nil _⟩
      rw [hadded]
      simp [acceptedItems, queueEvents, added, release]

/-- **First in, first out**: what the workers have not taken is in the queue, or in the hands of the
main thread. -/
theorem Run.order (h : Run J net events s) :
    acceptedItems events = takenItems events ++ (s.queue.mQueue ++ s.item.toList) := by
  rw [h.accepted.1, h.queueRun.items, List.append_assoc]
  rfl

/-- The connections accepted are numbered in order. -/
theorem Run.conn_lt (h : Run J net events s) (hitem : item ∈ acceptedItems events) :
    item.conn < s.accepted := by
  have hmem := List.mem_map_of_mem (f := WorkItem.conn) hitem
  rw [h.accepted.2] at hmem
  exact List.mem_range.1 hmem

/-- What a worker takes was accepted. -/
theorem Run.taken_accepted (h : Run J net events s) (hitem : item ∈ takenItems events) :
    item ∈ acceptedItems events := by
  rw [h.order]
  exact List.mem_append_left _ hitem

/-- No connection comes twice from the queue. -/
theorem Run.not_taken (h : Run J net events s) {u : Option τ} {queue : WQueue (Option τ) WorkItem}
    (hq : s.queue.Step (.remove u item) queue) :
    ∀ item' ∈ takenItems events, item'.conn ≠ item.conn := by
  intro item' hmem hconn
  have hnodup : ((acceptedItems events).map WorkItem.conn).Nodup := by
    rw [h.accepted.2]
    exact List.nodup_range
  rw [h.order, List.map_append] at hnodup
  have hfront : item ∈ s.queue.mQueue := by
    cases hq with
    | remove _ hsection =>
      rw [removeSection_item.1 hsection]
      exact List.mem_cons_self
  apply List.disjoint_of_nodup_append hnodup (List.mem_map_of_mem hmem)
  rw [hconn]
  exact List.mem_map_of_mem (List.mem_append_left _ hfront)

/-! ## Ownership -/

/-- The item a worker has in its hands. -/
def held (s : Server τ) (t : τ) : Option WorkItem := (s.busy t).map Busy.item

/-- Who has the items that were taken, and which sockets are open. -/
structure Owned (accepted taken closed : List WorkItem) (hands : τ → Option WorkItem)
    (sockets : ℕ → Option ℕ) : Prop where
  live : ∀ t item, hands t = some item → item ∈ taken ∧ item ∉ closed
  one : ∀ t t' item, hands t = some item → hands t' = some item → t = t'
  rest : ∀ item ∈ taken, item ∈ closed ∨ ∃ t, hands t = some item
  past : ∀ item ∈ closed, item ∈ taken
  once : closed.Nodup
  opened : ∀ sd c, sockets sd = some c ↔ ⟨c, sd⟩ ∈ accepted ∧ ⟨c, sd⟩ ∉ closed

variable {accepted taken closed : List WorkItem} {hands : τ → Option WorkItem}
    {sockets : ℕ → Option ℕ} {c sd : ℕ}

omit [DecidableEq τ] in
/-- The kernel gives a socket that is not open to a new connection. -/
theorem Owned.accept (h : Owned accepted taken closed hands sockets)
    (hsub : ∀ item ∈ taken, item ∈ accepted)
    (hnew : ⟨c, sd⟩ ∉ accepted) (hsd : sockets sd = none) :
    Owned (accepted ++ [⟨c, sd⟩]) taken closed hands (Function.update sockets sd (some c)) := by
  refine { h with opened := fun sd' c' => ?_ }
  rw [List.mem_append, List.mem_singleton]
  by_cases hd : sd' = sd
  · subst hd
    rw [Function.update_self]
    constructor
    · intro hc
      obtain rfl := Option.some.inj hc
      exact ⟨Or.inr rfl, fun hmem => hnew (hsub _ (h.past _ hmem))⟩
    · rintro ⟨hmem | hitem, hopen⟩
      · -- a live item would have the socket
        rw [(h.opened sd' c').2 ⟨hmem, hopen⟩] at hsd
        cases hsd
      · cases hitem
        rfl
  · rw [Function.update_of_ne hd, h.opened]
    have hne : (⟨c', sd'⟩ : WorkItem) ≠ ⟨c, sd⟩ := fun heq => hd (congrArg WorkItem.sd heq)
    simp [hne]

/-- A worker takes an item that nobody had. -/
theorem Owned.take (h : Owned accepted taken closed hands sockets) (hidle : hands t = none)
    (hnew : item ∉ taken) :
    Owned accepted (taken ++ [item]) closed (Function.update hands t (some item)) sockets := by
  -- only the worker that took the item holds something else than before
  have hcases : ∀ t' item', Function.update hands t (some item) t' = some item' →
      t' = t ∧ item' = item ∨ t' ≠ t ∧ hands t' = some item' := by
    intro t' item' hheld
    by_cases ht : t' = t
    · rw [ht, Function.update_self] at hheld
      exact Or.inl ⟨ht, (Option.some.inj hheld).symm⟩
    · rw [Function.update_of_ne ht] at hheld
      exact Or.inr ⟨ht, hheld⟩
  refine { h with
    live := ?_
    one := ?_
    rest := ?_
    past := fun item' hitem' => List.mem_append_left _ (h.past item' hitem') }
  · intro t' item' hheld
    rcases hcases t' item' hheld with ⟨-, rfl⟩ | ⟨-, hheld⟩
    · exact ⟨List.mem_append_right _ (List.mem_singleton_self _), fun hmem => hnew (h.past _ hmem)⟩
    · exact ⟨List.mem_append_left _ (h.live t' item' hheld).1, (h.live t' item' hheld).2⟩
  · intro t₁ t₂ item' h₁ h₂
    rcases hcases t₁ item' h₁ with ⟨rfl, rfl⟩ | ⟨-, hheld₁⟩
    · rcases hcases t₂ _ h₂ with ⟨rfl, -⟩ | ⟨-, hheld₂⟩
      · rfl
      · exact absurd (h.live t₂ _ hheld₂).1 hnew
    · rcases hcases t₂ item' h₂ with ⟨-, rfl⟩ | ⟨-, hheld₂⟩
      · exact absurd (h.live t₁ _ hheld₁).1 hnew
      · exact h.one t₁ t₂ item' hheld₁ hheld₂
  · intro item' hitem'
    rcases List.mem_append.1 hitem' with hmem | hmem
    · rcases h.rest item' hmem with hclosed | ⟨t', hheld⟩
      · exact Or.inl hclosed
      · have ht : t' ≠ t := by
          rintro rfl
          rw [hidle] at hheld
          cases hheld
        exact Or.inr ⟨t', by rw [Function.update_of_ne ht, hheld]⟩
    · obtain rfl := List.mem_singleton.1 hmem
      exact Or.inr ⟨t, Function.update_self _ _ _⟩

/-- A worker destroys its item. -/
theorem Owned.close (h : Owned accepted taken closed hands sockets)
    (hsub : ∀ item ∈ taken, item ∈ accepted)
    (hheld : hands t = some item) :
    Owned accepted taken (closed ++ [item]) (Function.update hands t none)
      (Function.update sockets item.sd none) := by
  have hitem := h.live t item hheld
  have hback : ∀ t' item', Function.update hands t none t' = some item' → t' ≠ t ∧
      hands t' = some item' := by
    intro t' item' h'
    by_cases ht : t' = t
    · rw [ht, Function.update_self] at h'
      cases h'
    · rw [Function.update_of_ne ht] at h'
      exact ⟨ht, h'⟩
  refine ⟨?_, ?_, ?_, ?_, ?_, ?_⟩
  · intro t' item' h'
    obtain ⟨ht, hheld'⟩ := hback t' item' h'
    refine ⟨(h.live t' item' hheld').1, fun hmem => ?_⟩
    rcases List.mem_append.1 hmem with hmem | hmem
    · exact (h.live t' item' hheld').2 hmem
    · obtain rfl := List.mem_singleton.1 hmem
      exact ht (h.one t' t _ hheld' hheld)
  · intro t₁ t₂ item' h₁ h₂
    exact h.one t₁ t₂ item' (hback t₁ item' h₁).2 (hback t₂ item' h₂).2
  · intro item' hmem
    rcases h.rest item' hmem with hclosed | ⟨t', hheld'⟩
    · exact Or.inl (List.mem_append_left _ hclosed)
    · by_cases ht : t' = t
      · rw [ht, hheld] at hheld'
        obtain rfl := Option.some.inj hheld'
        exact Or.inl (List.mem_append_right _ (List.mem_singleton_self _))
      · exact Or.inr ⟨t', by rw [Function.update_of_ne ht, hheld']⟩
  · intro item' hmem
    rcases List.mem_append.1 hmem with hmem | hmem
    · exact h.past item' hmem
    · rw [List.mem_singleton.1 hmem]
      exact hitem.1
  · apply List.Nodup.append h.once (List.nodup_singleton item)
    exact List.disjoint_singleton.2 hitem.2
  · intro sd' c'
    rw [List.mem_append, List.mem_singleton]
    by_cases hd : sd' = item.sd
    · subst hd
      rw [Function.update_self]
      refine ⟨fun hc => (by cases hc), fun hc => ?_⟩
      -- the open socket is the one of `item`
      have hopen := (h.opened item.sd c').2 ⟨hc.1, fun hmem => hc.2 (Or.inl hmem)⟩
      have hown := (h.opened item.sd item.conn).2 ⟨hsub item hitem.1, hitem.2⟩
      rw [hown] at hopen
      obtain rfl := Option.some.inj hopen
      exact absurd (Or.inr rfl) hc.2
    · rw [Function.update_of_ne hd, h.opened]
      have hne : (⟨c', sd'⟩ : WorkItem) ≠ item := fun heq => hd (congrArg WorkItem.sd heq)
      simp [hne]

omit [DecidableEq τ] in
/-- The socket of an item in the hands of a worker is open. -/
theorem Owned.socket (h : Owned accepted taken closed hands sockets)
    (hsub : ∀ item ∈ taken, item ∈ accepted)
    (hheld : hands t = some item) : sockets item.sd = some item.conn :=
  (h.opened _ _).2 ⟨hsub _ (h.live t item hheld).1, (h.live t item hheld).2⟩

omit [DecidableEq τ] in
theorem held_of_busy {b : Busy} (h : s.busy t = some b) : s.held t = some b.item := by
  rw [Server.held, h, Option.map_some]

/-- What the workers hold after one of them changes. -/
theorem held_update (s : Server τ) (t : τ) (b : Option Busy) :
    (fun u => (Function.update s.busy t b u).map Busy.item) =
      Function.update s.held t (b.map Busy.item) :=
  Function.comp_update (Option.map Busy.item) s.busy t b

/-- Every item accepted is queued, held or closed, and only once. By induction on the run. -/
theorem Run.isOwned (h : Run J net events s) :
    Owned (acceptedItems events) (takenItems events) (closedItems events) s.held s.sockets := by
  induction h with
  | start =>
    refine ⟨?_, ?_, ?_, ?_, List.nodup_nil, ?_⟩
    · intro t item hheld
      cases hheld
    · intro t t' item hheld
      cases hheld
    · intro item hmem
      exact absurd hmem List.not_mem_nil
    · intro item hmem
      exact absurd hmem List.not_mem_nil
    · intro sd c
      constructor
      · intro hc
        cases hc
      · intro hc
        exact absurd hc.1 List.not_mem_nil
  | @step events s event s' hrun hstep ih =>
    have hsub : ∀ item ∈ takenItems events, item ∈ acceptedItems events :=
      fun item => hrun.taken_accepted
    rw [acceptedItems_append, takenItems_append, closedItems_append]
    cases hstep with
    | @accept sd _ _ hsd =>
      have hnew : ⟨s.accepted, sd⟩ ∉ acceptedItems events :=
        fun hmem => lt_irrefl _ (hrun.conn_lt hmem)
      change Owned (acceptedItems events ++ [⟨s.accepted, sd⟩]) (takenItems events ++ [])
        (closedItems events ++ []) s.held _
      rw [List.append_nil, List.append_nil]
      exact ih.accept hsub hnew hsd
    | @remove t item queue input _ hidle hq =>
      have hnew : item ∉ takenItems events := fun hmem => hrun.not_taken hq item hmem rfl
      have hnone : s.held t = none := by rw [Server.held, hidle, Option.map_none]
      change Owned (acceptedItems events ++ []) (takenItems events ++ [item])
        (closedItems events ++ [])
        (fun u => (Function.update s.busy t (some ⟨item, input⟩) u).map Busy.item) s.sockets
      rw [List.append_nil, List.append_nil, held_update]
      exact ih.take hnone hnew
    | @answer t item input conn piece pieces json _ hb _ _ _ =>
      change Owned (acceptedItems events ++ []) (takenItems events ++ []) (closedItems events ++ [])
        (fun u => (Function.update s.busy t (some ⟨item, ConnectionHandler.fill input piece⟩) u).map
          Busy.item) s.sockets
      rw [List.append_nil, List.append_nil, List.append_nil, held_update, Option.map_some,
        ← held_of_busy hb, Function.update_eq_self]
      exact ih
    | @close t item input conn _ hb _ _ =>
      change Owned (acceptedItems events ++ []) (takenItems events ++ [])
        (closedItems events ++ [item])
        (fun u => (Function.update s.busy t none u).map Busy.item)
        (Function.update s.sockets item.sd none)
      rw [List.append_nil, List.append_nil, held_update]
      exact ih.close hsub (held_of_busy hb)
    -- a held item has its socket open
    | @badSocket t item input _ hb hsd =>
      rw [ih.socket hsub (held_of_busy hb)] at hsd
      cases hsd
    | acceptFailed | add | wake | wait | escape | sigpipe =>
      change Owned (acceptedItems events ++ []) (takenItems events ++ []) (closedItems events ++ [])
        s.held s.sockets
      rw [List.append_nil, List.append_nil, List.append_nil]
      exact ih

/-- One worker has served a connection, and the next one is in the queue. -/
def deleteTwice : List (ServerEvent Unit) :=
  [.accept ⟨0, 3⟩, .queue (.add none ⟨0, 3⟩), .accept ⟨1, 4⟩, .queue (.add none ⟨1, 4⟩),
    .queue (.remove (some ()) ⟨0, 3⟩), .answer () 0 (Statement.delete (str "t") []).json,
    .close () ⟨0, 3⟩]

theorem deleteTwice_run :
    ∃ s, Run deleteText (fun _ => [deleteObject]) deleteTwice s ∧ s.ended = false ∧
    s.queue.mQueue = [⟨1, 4⟩] := by
  have hparse : deleteText.parse (cString (ConnectionHandler.fill [] deleteObject)) =
      some (Statement.delete (str "t") []).json := by
    rw [cString_fill (by decide)]
    exact deleteText_lawful.parse_dump deleteOnce.dumped
  have hsignal : ∀ items, (⟨items, ∅, ∅⟩ : WQueue (Option Unit) WorkItem).Signals ∅ :=
    fun _ => ⟨Finset.empty_subset _, fun h => absurd h Finset.not_nonempty_empty⟩
  have hrun : Run deleteText (fun _ => [deleteObject]) ([] : List (ServerEvent Unit))
      (start fun _ => [deleteObject]) :=
    Run.start
  have hrun := hrun.step (show Step _ _ (.accept ⟨0, 3⟩) _ from .accept rfl rfl rfl)
  have hrun := hrun.step (.add rfl rfl (.add (by decide) (by decide) (hsignal _)))
  have hrun := hrun.step (show Step _ _ (.accept ⟨1, 4⟩) _ from .accept rfl rfl rfl)
  have hrun := hrun.step (.add rfl rfl (.add (by decide) (by decide) (hsignal _)))
  have hrun := hrun.step (@Step.remove _ _ _ _ () _ _ [] rfl rfl (.remove (by decide) rfl))
  have hrun := hrun.step (.answer (t := ()) rfl rfl rfl rfl hparse)
  have hrun := hrun.step (.close (t := ()) rfl rfl rfl rfl)
  exact ⟨_, hrun, rfl, rfl⟩

/-- **The connections are kept apart**, over every interleaving: the items are taken in the order of
acceptance, each by one worker, which has it until it closes its socket; the open sockets are those
of the connections that were not closed, none is closed twice, and none is used after it was closed.
-/
theorem Run.owned (h : Run J net events s) :
    acceptedItems events = takenItems events ++ (s.queue.mQueue ++ s.item.toList) ∧
    (acceptedItems events).map WorkItem.conn = List.range s.accepted ∧
    (∀ item ∈ takenItems events,
      item ∈ closedItems events ∧ (∀ t b, s.busy t = some b → b.item ≠ item) ∨
      item ∉ closedItems events ∧ ∃! t, ∃ b, s.busy t = some b ∧ b.item = item) ∧
    (∀ sd conn, s.sockets sd = some conn ↔
      ⟨conn, sd⟩ ∈ acceptedItems events ∧ ⟨conn, sd⟩ ∉ closedItems events) ∧
    (closedItems events).Nodup ∧ ∀ t item s', ¬ Step J s (.badSocket t item) s' := by
  have howned := h.isOwned
  have hsub : ∀ item ∈ takenItems events, item ∈ acceptedItems events :=
    fun item => h.taken_accepted
  refine ⟨h.order, h.accepted.2, ?_, howned.opened, howned.once, ?_⟩
  · intro item hitem
    by_cases hclosed : item ∈ closedItems events
    · refine Or.inl ⟨hclosed, ?_⟩
      rintro t b hb rfl
      exact (howned.live t _ (held_of_busy hb)).2 hclosed
    · refine Or.inr ⟨hclosed, ?_⟩
      obtain ⟨t, hheld⟩ := (howned.rest item hitem).resolve_left hclosed
      obtain ⟨b, hb, rfl⟩ := Option.map_eq_some_iff.1 hheld
      refine ⟨t, ⟨b, hb, rfl⟩, ?_⟩
      -- no second worker holds it
      rintro t' ⟨b', hb', hitem'⟩
      exact howned.one t' t b.item (hitem' ▸ held_of_busy hb') hheld
  · intro t item s' hstep
    cases hstep with
    | @badSocket _ _ input _ hb hsd =>
      rw [howned.socket hsub (held_of_busy hb)] at hsd
      cases hsd

theorem Run.owned_twice : ∃ s, Run deleteText (fun _ => [deleteObject]) deleteTwice s ∧
    acceptedItems deleteTwice = takenItems deleteTwice ++ (s.queue.mQueue ++ s.item.toList) ∧
    (acceptedItems deleteTwice).map WorkItem.conn = List.range s.accepted ∧
    (∀ item ∈ takenItems deleteTwice,
      item ∈ closedItems deleteTwice ∧ (∀ t b, s.busy t = some b → b.item ≠ item) ∨
      item ∉ closedItems deleteTwice ∧ ∃! t, ∃ b, s.busy t = some b ∧ b.item = item) ∧
    (∀ sd conn, s.sockets sd = some conn ↔ ⟨conn, sd⟩ ∈ acceptedItems deleteTwice ∧
      ⟨conn, sd⟩ ∉ closedItems deleteTwice) ∧
    (closedItems deleteTwice).Nodup ∧ ∀ t item s', ¬ Step deleteText s (.badSocket t item) s' := by
  obtain ⟨s, hrun, -⟩ := deleteTwice_run
  exact ⟨s, hrun, Run.owned hrun⟩

/-! ## Answers -/

/-- The buffer reads as the piece and the NUL written after it. -/
theorem cString_fill_eq (input piece : Str) :
    cString (ConnectionHandler.fill input piece) = cString (piece ++ [0]) := by
  rw [cString, cString, ConnectionHandler.fill, List.takeWhile_append, List.takeWhile_append]
  simp

/-- The loop reads only what it has just received. -/
theorem run_input (J : JsonText) (input input' : Str) (pieces : List Str) :
    ConnectionHandler.run J input pieces = ConnectionHandler.run J input' pieces := by
  induction pieces generalizing input input' with
  | nil => rfl
  | cons piece pieces ih =>
    rw [ConnectionHandler.run, ConnectionHandler.run, cString_fill_eq input, cString_fill_eq input']
    rw [ih (ConnectionHandler.fill input piece) (ConnectionHandler.fill input' piece)]

/-- What `run` reads from the connection, alone. -/
def Heard (J : JsonText) (pieces : List Str) (parsed : List Json) (rest : List Str) : Prop :=
  parsed ++ (ConnectionHandler.run J [] rest).parsed = (ConnectionHandler.run J [] pieces).parsed ∧
    (ConnectionHandler.run J [] rest).escaped = (ConnectionHandler.run J [] pieces).escaped

/-- One more result of `receive`. -/
theorem Heard.answer {pieces rest : List Str} {parsed : List Json} {input piece : Str} {json : Json}
    (h : Heard J pieces parsed (piece :: rest))
    (hparse : J.parse (cString (ConnectionHandler.fill input piece)) = some json) :
    Heard J pieces (parsed ++ [json]) rest := by
  rw [cString_fill_eq, ← cString_fill_eq []] at hparse
  obtain ⟨hparsed, hescaped⟩ := h
  rw [ConnectionHandler.run, hparse] at hparsed hescaped
  rw [run_input J (ConnectionHandler.fill [] piece) []] at hparsed hescaped
  exact ⟨by rw [List.append_assoc]; exact hparsed, hescaped⟩

/-- A piece that is no value ends the lone run too. -/
theorem Heard.escape {pieces rest : List Str} {parsed : List Json} {input piece : Str}
    (h : Heard J pieces parsed (piece :: rest))
    (hparse : J.parse (cString (ConnectionHandler.fill input piece)) = none) :
    parsed = (ConnectionHandler.run J [] pieces).parsed ∧
      (ConnectionHandler.run J [] pieces).escaped = true := by
  rw [cString_fill_eq, ← cString_fill_eq []] at hparse
  obtain ⟨hparsed, hescaped⟩ := h
  rw [ConnectionHandler.run, hparse] at hparsed hescaped
  exact ⟨by rw [← hparsed, List.append_nil], hescaped.symm⟩

/-- What is answered on a connection is what the lone run answers to the pieces read. -/
theorem Run.heard (h : Run J net events s) (conn : ℕ) :
    Heard J (net conn) (answersOn events conn) (s.unread conn) := by
  induction h with
  | start => exact ⟨rfl, rfl⟩
  | @step events s event s' hrun hstep ih =>
    rw [answersOn_append]
    cases hstep with
    | @answer t item input c piece pieces json _ hb hopen hunread hparse =>
      -- an answer concerns its own connection only
      by_cases hc : c = conn
      · subst hc
        rw [hunread] at ih
        have hanswer : answersOn [.answer t c json] c = [json] := by simp [answersOn]
        have hrest : (Function.update s.unread c pieces) c = pieces := Function.update_self _ _ _
        rw [hanswer]
        change Heard J (net c) _ (Function.update s.unread c pieces c)
        rw [hrest]
        exact ih.answer hparse
      · have hanswer : answersOn [.answer t c json] conn = [] := by simp [answersOn, hc]
        rw [hanswer, List.append_nil]
        change Heard J (net conn) _ (Function.update s.unread c pieces conn)
        rw [Function.update_of_ne (Ne.symm hc)]
        exact ih
    | accept | acceptFailed | add | wake | wait | remove | escape | sigpipe | close | badSocket =>
      change Heard J (net conn) (answersOn events conn ++ []) (s.unread conn)
      rw [List.append_nil]
      exact ih

/-- The worker reads from the connection of its item. -/
theorem Run.conn_of_busy (h : Run J net events s) {b : Busy} (hb : s.busy t = some b)
    (hopen : s.sockets b.item.sd = some conn) :
    b.item.conn = conn := by
  rw [h.isOwned.socket (fun item => h.taken_accepted) (held_of_busy hb)] at hopen
  exact Option.some.inj hopen

/-- A closed connection was read to its end. -/
theorem Run.closed_unread (h : Run J net events s) :
    ∀ item ∈ closedItems events, s.unread item.conn = [] := by
  induction h with
  | start => exact fun item hmem => absurd hmem List.not_mem_nil
  | @step events s event s' hrun hstep ih =>
    intro item hmem
    rw [closedItems_append] at hmem
    cases hstep with
    | @close t item' input conn _ hb hopen hunread =>
      rcases List.mem_append.1 hmem with hmem | hmem
      · exact ih item hmem
      · obtain rfl : item = item' := List.mem_singleton.1 hmem
        have hconn := hrun.conn_of_busy hb hopen
        exact hconn ▸ hunread
    | @answer t item' input c piece pieces json _ _ _ hunread _ =>
      have hclosed : item ∈ closedItems events :=
        (List.mem_append.1 hmem).resolve_right List.not_mem_nil
      have hne : item.conn ≠ c := by
        rintro rfl
        rw [ih item hclosed] at hunread
        cases hunread
      change Function.update s.unread c pieces item.conn = []
      rw [Function.update_of_ne hne]
      exact ih item hclosed
    | accept | acceptFailed | add | wake | wait | remove | escape | sigpipe | badSocket =>
      exact ih item ((List.mem_append.1 hmem).resolve_right List.not_mem_nil)

/-- On a closed connection the lone run has ended with the same answers. -/
theorem Run.heard_closed (h : Run J net events s) (hmem : item ∈ closedItems events) :
    answersOn events item.conn = (ConnectionHandler.run J [] (net item.conn)).parsed ∧
      (ConnectionHandler.run J [] (net item.conn)).escaped = false := by
  obtain ⟨hparsed, hescaped⟩ := h.heard item.conn
  rw [h.closed_unread item hmem, ConnectionHandler.run] at hparsed hescaped
  exact ⟨by rw [← hparsed, List.append_nil], hescaped.symm⟩

/-- **A connection is answered as if it were alone**, over every interleaving and whatever the
buffers of the workers hold: what was read of it so far is a beginning of what `run` reads of it
alone, and all of it once it is closed; and an exception leaves a worker only where one leaves that
`run`. -/
theorem Run.answered (h : Run J net events s) :
    (∀ conn, answersOn events conn <+: (ConnectionHandler.run J [] (net conn)).parsed) ∧
    (∀ item ∈ closedItems events, answersOn events item.conn =
      (ConnectionHandler.run J [] (net item.conn)).parsed ∧
      (ConnectionHandler.run J [] (net item.conn)).escaped = false) ∧
    (∀ t conn s', Step J s (.escape t conn) s' → answersOn events conn =
      (ConnectionHandler.run J [] (net conn)).parsed ∧
      (ConnectionHandler.run J [] (net conn)).escaped = true) := by
  refine ⟨fun conn => ⟨_, (h.heard conn).1⟩, fun item => h.heard_closed, ?_⟩
  intro t conn s' hstep
  cases hstep with
  | @escape _ item input _ piece pieces _ _ _ hunread hparse =>
    have hheard := h.heard conn
    rw [hunread] at hheard
    exact hheard.escape hparse

theorem Run.answered_twice : ∃ s, Run deleteText (fun _ => [deleteObject]) deleteTwice s ∧
    (∀ conn, answersOn deleteTwice conn <+:
      (ConnectionHandler.run deleteText [] [deleteObject]).parsed) ∧
    (∀ item ∈ closedItems deleteTwice,
      answersOn deleteTwice item.conn =
        (ConnectionHandler.run deleteText [] [deleteObject]).parsed ∧
      (ConnectionHandler.run deleteText [] [deleteObject]).escaped = false) ∧
    (∀ t conn s', Step deleteText s (.escape t conn) s' →
      answersOn deleteTwice conn = (ConnectionHandler.run deleteText [] [deleteObject]).parsed ∧
      (ConnectionHandler.run deleteText [] [deleteObject]).escaped = true) := by
  obtain ⟨s, hrun, -⟩ := deleteTwice_run
  exact ⟨s, hrun, Run.answered hrun⟩

/-! ## Progress -/

/-- The main thread never waits. -/
theorem Run.main_awake (h : Run J net events s) :
    none ∉ s.queue.waiting ∧ none ∉ s.queue.woken := by
  induction h with
  | start => exact ⟨Finset.notMem_empty _, Finset.notMem_empty _⟩
  | @step events s event s' hrun hstep ih =>
    have hwake : ∀ {queue : WQueue (Option τ) WorkItem} {ts : Finset (Option τ)},
        none ∉ queue.waiting → none ∉ queue.woken →
        ts ⊆ queue.waiting → none ∉ (queue.wake ts).waiting ∧ none ∉ (queue.wake ts).woken := by
      intro queue ts hwaiting hwoken hts
      refine ⟨fun hmem => hwaiting (Finset.mem_sdiff.1 hmem).1, fun hmem => ?_⟩
      rcases Finset.mem_union.1 hmem with hmem | hmem
      · exact hwoken hmem
      · exact hwaiting (hts hmem)
    cases hstep with
    | add _ _ hq =>
      cases hq with
      | add _ _ hsig => exact hwake ih.1 ih.2 hsig.1
    | wake _ hq =>
      cases hq with
      | spurious hts => exact hwake ih.1 ih.2 hts
    | wait _ _ hq =>
      cases hq with
      | wait _ _ => exact ⟨by simp [ih.1], fun hmem => ih.2 (Finset.mem_of_mem_erase hmem)⟩
    | remove _ _ hq =>
      cases hq with
      | remove _ _ => exact ⟨ih.1, fun hmem => ih.2 (Finset.mem_of_mem_erase hmem)⟩
    | accept | acceptFailed | answer | escape | sigpipe | close | badSocket => exact ih

/-- A worker with an item can go on, whatever the others do. -/
theorem Run.busy_serves (h : Run J net events s) (hended : s.ended = false) {b : Busy}
    (hb : s.busy t = some b) :
    ∃ event s', Step J s event s' ∧ event.serves = true := by
  have hopen := h.isOwned.socket (fun item => h.taken_accepted) (held_of_busy hb)
  rcases hunread : s.unread b.item.conn with _ | ⟨piece, pieces⟩
  · exact ⟨_, _, .close hended hb hopen hunread, rfl⟩
  · rcases hparse : J.parse (cString (ConnectionHandler.fill b.input piece)) with _ | json
    · exact ⟨_, _, .escape hended hb hopen hunread hparse, rfl⟩
    · exact ⟨_, _, .answer hended hb hopen hunread hparse, rfl⟩

/-- A worker that does not wait takes the item at the front of the queue. -/
theorem idle_serves (J : JsonText) (hended : s.ended = false) (hidle : s.busy t = none)
    (hwait : some t ∉ s.queue.waiting)
    (hqueue : s.queue.mQueue ≠ []) : ∃ event s', Step J s event s' ∧ event.serves = true := by
  obtain ⟨item, rest, hcons⟩ := List.exists_cons_of_ne_nil hqueue
  have hq := WQueue.Step.remove hwait (removeSection_item.2 hcons)
  have input : Str := []
  exact ⟨_, _, @Step.remove _ _ J _ _ _ _ input hended hidle hq, rfl⟩

/-- While the queue has an item, some worker is not waiting. -/
theorem Run.queue_serves [Nonempty τ] (h : Run J net events s) (hended : s.ended = false)
    (hidle : ∀ t, s.busy t = none)
    (hqueue : s.queue.mQueue ≠ []) : ∃ event s', Step J s event s' ∧ event.serves = true := by
  by_cases hall : ∀ t, some t ∈ s.queue.waiting
  · -- then one was woken for the item
    have hawake := h.queueRun.awake
    obtain ⟨t⟩ := ‹Nonempty τ›
    have hcard := hawake.enough ⟨some t, hall t⟩
    have hpos : 0 < s.queue.woken.card := (List.length_pos_iff.2 hqueue).trans_le hcard
    obtain ⟨u, hu⟩ := Finset.card_pos.1 hpos
    cases u with
    | none => exact absurd hu h.main_awake.2
    | some u => exact absurd hu (Finset.disjoint_left.1 hawake.disjoint (hall u))
  · push Not at hall
    obtain ⟨t, ht⟩ := hall
    exact idle_serves J hended (hidle t) ht hqueue

/-- Where nothing serves any more, every connection that was added is closed. -/
theorem Run.quiet [Nonempty τ] (h : Run J net events s) (hended : s.ended = false)
    (hquiet : ∀ event s', Step J s event s' → event.serves = false) :
    ∀ item ∈ acceptedItems events, item ∈ closedItems events ∨ s.item = some item := by
  have hstuck : ¬ ∃ event s', Step J s event s' ∧ event.serves = true := by
    rintro ⟨event, s', hstep, hserves⟩
    rw [hquiet event s' hstep] at hserves
    cases hserves
  have hidle : ∀ t, s.busy t = none := by
    intro t
    rcases hb : s.busy t with _ | b
    · rfl
    · exact absurd (h.busy_serves hended hb) hstuck
  have hempty : s.queue.mQueue = [] := by
    by_contra hqueue
    exact hstuck (h.queue_serves hended hidle hqueue)
  intro item hmem
  rw [h.order, hempty, List.nil_append] at hmem
  rcases List.mem_append.1 hmem with hmem | hmem
  · left
    apply (h.isOwned.rest item hmem).resolve_right
    rintro ⟨t, hheld⟩
    rw [Server.held, hidle] at hheld
    cases hheld
  · exact Or.inr (Option.mem_toList.1 hmem)

omit [DecidableEq τ] in
theorem transcript_append : transcript (es ++ es') = transcript es ++ transcript es' :=
  List.filterMap_append

/-- The kinds of work. -/
theorem Run.count (h : Run J net events s) : events.countP ServerEvent.serves =
    (takenItems events).length + (closedItems events).length + (transcript events).length +
      s.ended.toNat := by
  induction h with
  | start => rfl
  | @step events s event s' hrun hstep ih =>
    rw [List.countP_append, takenItems_append, closedItems_append, transcript_append,
      List.length_append, List.length_append,
      List.length_append, ih]
    cases hstep with
    | badSocket _ hb hsd =>
      rw [hrun.isOwned.socket (fun item => hrun.taken_accepted) (held_of_busy hb)] at hsd
      cases hsd
    | escape hended | sigpipe hended =>
      simp [hended, ServerEvent.serves, takenItems, closedItems, transcript, queueEvents, removed]
    | accept | acceptFailed | add | wake | wait =>
      simp [ServerEvent.serves, takenItems, closedItems, transcript, queueEvents, removed]
    | remove | answer | close =>
      simp [ServerEvent.serves, takenItems, closedItems, transcript, queueEvents, removed, release]
      omega

/-- What is read and what is not read yet of the connections that were accepted. -/
theorem Run.reads (h : Run J net events s) : (∀ c, s.accepted ≤ c → s.unread c = net c) ∧
    (transcript events).length + ∑ c ∈ Finset.range s.accepted, (s.unread c).length =
      ∑ c ∈ Finset.range s.accepted, (net c).length := by
  induction h with
  | start => exact ⟨fun c _ => rfl, rfl⟩
  | @step events s event s' hrun hstep ih =>
    obtain ⟨hnew, hsum⟩ := ih
    rw [transcript_append, List.length_append]
    cases hstep with
    | accept =>
      refine ⟨fun c hc => hnew c (Nat.le_of_succ_le hc), ?_⟩
      change (transcript events).length + 0 + ∑ c ∈ Finset.range (s.accepted + 1),
        (s.unread c).length = _
      rw [Finset.sum_range_succ, Finset.sum_range_succ, hnew _ le_rfl, ← hsum]
      omega
    | @answer t item input conn piece pieces json _ hb hopen hunread _ =>
      have hconn := hrun.conn_of_busy hb hopen
      have hlt : conn < s.accepted := by
        rw [← hconn]
        exact hrun.conn_lt (hrun.taken_accepted (hrun.isOwned.live t _ (held_of_busy hb)).1)
      constructor
      · intro c hc
        change Function.update s.unread conn pieces c = net c
        rw [Function.update_of_ne (hlt.trans_le hc).ne']
        exact hnew c hc
      · have hmem := Finset.mem_range.2 hlt
        have hrest : ∑ c ∈ (Finset.range s.accepted).erase conn,
            (Function.update s.unread conn pieces c).length =
            ∑ c ∈ (Finset.range s.accepted).erase conn, (s.unread c).length := by
          apply Finset.sum_congr rfl
          intro c hc
          rw [Function.update_of_ne (Finset.ne_of_mem_erase hc)]
        rw [← Finset.add_sum_erase _ (fun c => (s.unread c).length) hmem, hunread,
          List.length_cons] at hsum
        change (transcript events).length + 1 + ∑ c ∈ Finset.range s.accepted,
          (Function.update s.unread conn pieces c).length = _
        rw [← Finset.add_sum_erase _ (fun c => (Function.update s.unread conn pieces c).length)
          hmem, hrest,
          Function.update_self, ← hsum]
        omega
    | acceptFailed | add | wake | wait | remove | escape | sigpipe | close | badSocket =>
      exact ⟨hnew, hsum⟩

/-- A connection is read after its item was taken. -/
theorem Run.answers_taken (h : Run J net events s) :
    ∀ conn, answersOn events conn ≠ [] → ∃ item ∈ takenItems events, item.conn = conn := by
  induction h with
  | start => exact fun conn hne => absurd rfl hne
  | @step events s event s' hrun hstep ih =>
    intro conn hne
    rw [takenItems_append]
    have hold : answersOn events conn ≠ [] → ∃ item ∈ takenItems events ++ takenItems [event],
        item.conn = conn := by
      intro hne
      obtain ⟨item, hmem, hconn⟩ := ih conn hne
      exact ⟨item, List.mem_append_left _ hmem, hconn⟩
    rw [answersOn_append] at hne
    cases hstep with
    | @answer t item input c _ _ json _ hb hopen _ _ =>
      by_cases hc : c = conn
      · have hmem := (hrun.isOwned.live t _ (held_of_busy hb)).1
        exact ⟨item, List.mem_append_left _ hmem, (hrun.conn_of_busy hb hopen).trans hc⟩
      · have hnone : answersOn [.answer t c json] conn = [] := by simp [answersOn, hc]
        rw [hnone, List.append_nil] at hne
        exact hold hne
    | accept | acceptFailed | add | wake | wait | remove | escape | sigpipe | close | badSocket =>
      apply hold
      rwa [← List.append_nil (answersOn events conn)]

/-- **The one worker that `main` starts** serves one connection after another: it has closed what it
has taken, but for one item at most, and what it has read is what `run` reads of the closed
connections, one after another and each to its end, and then what it has read of the last one. -/
theorem Run.sequential [Subsingleton τ] (h : Run J net events s) : ∃ current : Option WorkItem,
    takenItems events = closedItems events ++ current.toList ∧
      (∀ t, (s.busy t).map Busy.item = current) ∧
    transcript events = (closedItems events).flatMap (alone J net) ++
      current.toList.flatMap (soFar events) := by
  induction h with
  | start => exact ⟨none, rfl, fun t => rfl, rfl⟩
  | @step events s event s' hrun hstep ih =>
    obtain ⟨current, htaken, hbusy, htranscript⟩ := ih
    have hnext := hrun.step hstep
    -- other events leave what was read of a connection as it is
    have hquiet : (∀ conn, answersOn [event] conn = []) → soFar (events ++ [event]) =
        soFar events := by
      intro hnone
      funext item
      rw [soFar, soFar, answersOn_append, hnone, List.append_nil]
    cases hstep with
    | @remove t item queue input _ hidle hq =>
      have hnone : current = none := by rw [← hbusy t, hidle, Option.map_none]
      subst hnone
      refine ⟨some item, ?_, ?_, ?_⟩
      · rw [takenItems_append, closedItems_append, htaken]
        rfl
      · intro u
        obtain rfl := Subsingleton.elim u t
        change (Function.update s.busy u (some ⟨item, input⟩) u).map Busy.item = some item
        rw [Function.update_self, Option.map_some]
      · -- nothing was read of the new connection
        have hnew : answersOn events item.conn = [] := by
          by_contra hne
          obtain ⟨item', hmem, hconn⟩ := hrun.answers_taken item.conn hne
          exact hrun.not_taken hq item' hmem hconn
        have hnone : soFar (events ++ [.queue (.remove (some t) item)]) item = [] := by
          rw [hquiet fun _ => rfl, soFar, hnew, List.map_nil]
        rw [transcript_append, closedItems_append, htranscript]
        simp [transcript, closedItems, hnone]
    | @answer t item input c piece pieces json _ hb hopen _ _ =>
      have hitem : current = some item := by rw [← hbusy t, hb, Option.map_some]
      have hc : item.conn = c := hrun.conn_of_busy hb hopen
      subst hitem hc
      refine ⟨some item, ?_, ?_, ?_⟩
      · rw [takenItems_append, closedItems_append, htaken]
        simp [takenItems, closedItems, queueEvents, removed]
      · intro u
        obtain rfl := Subsingleton.elim u t
        change (Function.update s.busy u (some ⟨item, _⟩) u).map Busy.item = some item
        rw [Function.update_self, Option.map_some]
      · have hone : answersOn [.answer t item.conn json] item.conn = [json] := by simp [answersOn]
        have hmore : soFar (events ++ [.answer t item.conn json]) item = soFar events item ++
            [(item.conn, json)] := by
          rw [soFar, answersOn_append, hone, List.map_append]
          rfl
        rw [transcript_append, closedItems_append, htranscript]
        simp [transcript, closedItems, hmore]
    | @close t item input conn _ hb hopen _ =>
      have hitem : current = some item := by rw [← hbusy t, hb, Option.map_some]
      subst hitem
      refine ⟨none, ?_, ?_, ?_⟩
      · rw [takenItems_append, closedItems_append, htaken]
        simp [takenItems, closedItems, queueEvents, removed]
      · intro u
        obtain rfl := Subsingleton.elim u t
        change (Function.update s.busy u none u).map Busy.item = none
        rw [Function.update_self, Option.map_none]
      · -- it was read to its end
        have hmem : item ∈ closedItems (events ++ [.close t item]) := by
          rw [closedItems_append]
          exact List.mem_append_right _ (List.mem_singleton_self _)
        have hall : alone J net item = soFar events item := by
          rw [alone, ← (hnext.heard_closed hmem).1, ← hquiet fun _ => rfl]
          rfl
        rw [transcript_append, closedItems_append, htranscript]
        simp [transcript, closedItems, hall]
    | badSocket _ hb hsd =>
      rw [hrun.isOwned.socket (fun item => hrun.taken_accepted) (held_of_busy hb)] at hsd
      cases hsd
    | accept | acceptFailed | add | wake | wait | escape | sigpipe =>
      refine ⟨current, ?_, hbusy, ?_⟩
      · rw [takenItems_append, closedItems_append, htaken]
        simp [takenItems, closedItems, queueEvents, removed]
      · rw [transcript_append, closedItems_append, hquiet fun _ => rfl, htranscript]
        simp [transcript, closedItems]

theorem Run.sequential_twice :
    ∃ s, Run deleteText (fun _ => [deleteObject]) deleteTwice s ∧ ∃ current : Option WorkItem,
    takenItems deleteTwice = closedItems deleteTwice ++ current.toList ∧
      (∀ t, (s.busy t).map Busy.item = current) ∧
    transcript deleteTwice =
      (closedItems deleteTwice).flatMap (alone deleteText fun _ => [deleteObject]) ++
        current.toList.flatMap (soFar deleteTwice) := by
  obtain ⟨s, hrun, -⟩ := deleteTwice_run
  exact ⟨s, hrun, Run.sequential hrun⟩

end Server

end ToySQL
