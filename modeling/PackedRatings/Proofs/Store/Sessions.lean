import PackedRatings.Proofs.Store.PackedStore

/-!
# A store in use

A program starts passes over the ratings of a store, takes a rating from one pass and then from
another, leaves some of them half way, asks other questions and closes the store at last. Rows are
sorted by time when that order is first asked for, and the result is kept for later. A `Session`
follows all of this. What it keeps never shows: until it is closed, a pass starts as it does from
the store itself, and every pass reads its ratings one after the other, whatever is called in
between.
-/
namespace PackedRatings

inductive Question where
  | byteLength
  | userGroups
  | userIds
  | itemIds
  | ratingsByUser (user : Int64)
  | ratingsOfItem (item : Int64)
  | eventsByUser (user : Int64) (kind : Interaction)
  | eventsOfItem (item : Int64) (kind : Interaction)
  | usersOfItem (item : Int64)
  | itemsByUser (user : Int64)
  deriving DecidableEq

inductive Reply where
  | length (length : Except Failure Nat)
  | groups (groups : Except Failure UserGroups)
  | allKeys (keys : Except Failure KeyWindow)
  | selection (selection : Except Failure (Option Selection))
  | keys (keys : Except Failure (Option KeyWindow))

def Question.reply (s : RatingStore) : Question → Reply
  | .byteLength => .length s.byteLength
  | .userGroups => .groups s.userGroups
  | .userIds => .allKeys s.userIds
  | .itemIds => .allKeys s.itemIds
  | .ratingsByUser user => .selection (s.ratingsByUser? user)
  | .ratingsOfItem item => .selection (s.ratingsOfItem? item)
  | .eventsByUser user kind => .selection (s.eventsByUser? user kind)
  | .eventsOfItem item kind => .selection (s.eventsOfItem? item kind)
  | .usersOfItem item => .keys (s.usersOfItem? item)
  | .itemsByUser user => .keys (s.itemsByUser? user)

def RatingCursor.advance (c : RatingCursor) : RatingCursor :=
  match c.next? with
  | some (_, c) => c
  | none => c

theorem RatingCursor.advance_eq (c : RatingCursor) :
    c.advance = ⟨c.source, c.upcoming.drop 1⟩ := by
  obtain ⟨source, upcoming⟩ := c
  cases upcoming with
  | nil => rfl
  | cons row rows => rfl

theorem RatingCursor.map_fst_next? (c : RatingCursor) : c.next?.map Prod.fst = c.rest[0]? := by
  obtain ⟨source, upcoming⟩ := c
  cases upcoming with
  | nil => rfl
  | cons row rows => rfl

structure Session where
  store : RatingStore
  /-- The start of a pass in the order of time, once the rows have been sorted. -/
  byTime? : Option RatingCursor
  /-- The passes over all ratings, in the order in which they were started. -/
  passes : List RatingCursor

namespace Session

inductive Call where
  /-- Starts a pass. -/
  | read (order : RatingOrder)
  /-- Takes the next rating from a pass. -/
  | next (pass : Nat)
  | ask (question : Question)
  | close
  deriving DecidableEq

inductive Answer where
  | started (cursor : Except Failure RatingCursor)
  | rating (rating : Option Rating)
  | replied (reply : Reply)
  | closed

variable {s : RatingStore} {session : Session} {order : RatingOrder} {c : RatingCursor}
  {calls : List Call}

def fresh (s : RatingStore) : Session where
  store := s
  byTime? := none
  passes := []

/-- The cursor of a new pass. The rows are sorted by time if they have not been before. -/
def cursor (session : Session) (order : RatingOrder) : Except Failure RatingCursor :=
  match order, session.byTime? with
  | .timestamp, some c => .ok c
  | order, _ => session.store.cursor order

/-- Adds a pass. A pass in the order of time is kept to start later ones from, if the rows had to
be sorted for it. -/
def start (session : Session) (order : RatingOrder) (c : RatingCursor) : Session where
  store := session.store
  byTime? :=
    if order = .timestamp ∧ session.store.header.layout.timestamps then some c
    else session.byTime?
  passes := session.passes ++ [c]

def step (session : Session) : Call → Answer × Session
  | .read order =>
    match session.cursor order with
    | .ok c => (.started (.ok c), session.start order c)
    | .error failure => (.started (.error failure), session)
  | .next pass =>
    (.rating ((session.passes[pass]?.bind RatingCursor.next?).map Prod.fst),
      { session with passes := session.passes.modify pass RatingCursor.advance })
  | .ask question => (.replied (question.reply session.store), session)
  | .close => (.closed, { session with store := session.store.close, byTime? := none })

def after (session : Session) (calls : List Call) : Session :=
  calls.foldl (fun session call => (step session call).2) session

/-- The session has not closed `s`, and it keeps a cursor of `s`. -/
structure Keeps (session : Session) (s : RatingStore) : Prop where
  store : session.store = s
  byTime? : ∀ c, session.byTime? = some c → s.cursor .timestamp = .ok c

theorem keeps_fresh (s : RatingStore) : (fresh s).Keeps s :=
  ⟨rfl, nofun⟩

namespace Keeps

theorem cursor_eq (h : session.Keeps s) (order : RatingOrder) :
    session.cursor order = s.cursor order := by
  unfold Session.cursor
  split
  · rename_i c hkept
    exact (h.byTime? c hkept).symm
  · rw [h.store]

theorem start (h : session.Keeps s) (hc : s.cursor order = .ok c) :
    (session.start order c).Keeps s where
  store := h.store
  byTime? := by
    intro c' hkept
    rw [Session.start] at hkept
    split at hkept
    · rename_i htime
      cases hkept
      rwa [← htime.1]
    · exact h.byTime? c' hkept

/-- Only closing ends what is kept. -/
theorem step (h : session.Keeps s) {call : Call} (hopen : call ≠ .close) :
    (Session.step session call).2.Keeps s := by
  cases call with
  | read order =>
    rw [Session.step, h.cursor_eq]
    split
    · rename_i c hc
      exact h.start hc
    · exact h
  | next pass => exact ⟨h.store, h.byTime?⟩
  | ask question => exact h
  | close => exact absurd rfl hopen

theorem after (h : session.Keeps s) (hopen : .close ∉ calls) :
    (Session.after session calls).Keeps s := by
  induction calls generalizing session with
  | nil => exact h
  | cons call calls ih =>
    rw [List.mem_cons, not_or] at hopen
    exact ih (h.step (Ne.symm hopen.1)) hopen.2

end Keeps

/-- Other questions are answered from the store, whatever is kept. -/
theorem step_ask_after (hopen : .close ∉ calls) (question : Question) :
    (step (after (fresh s) calls) (.ask question)).1 = .replied (question.reply s) := by
  rw [step, ((keeps_fresh s).after hopen).store]

/-- The store is closed, and with it went what was kept. -/
structure Closed (session : Session) : Prop where
  file? : session.store.file? = none
  byTime? : session.byTime? = none

namespace Closed

theorem cursor_eq (h : session.Closed) (order : RatingOrder) :
    session.cursor order = .error .closed := by
  have hstore : session.store.cursor order = .error .closed := by
    rw [RatingStore.cursor, RatingStore.file, h.file?]
    rfl
  unfold Session.cursor
  rw [h.byTime?]
  cases order with
  | timestamp => exact hstore
  | stored => exact hstore
  | user => exact hstore
  | item => exact hstore

theorem step (h : session.Closed) (call : Call) : (Session.step session call).2.Closed := by
  cases call with
  | read order =>
    rw [Session.step, h.cursor_eq]
    exact h
  | next pass => exact ⟨h.file?, h.byTime?⟩
  | ask question => exact h
  | close => exact ⟨rfl, rfl⟩

theorem after (h : session.Closed) (calls : List Call) : (Session.after session calls).Closed := by
  induction calls generalizing session with
  | nil => exact h
  | cons call calls ih => exact ih (h.step call)

end Closed

theorem closed_after (session : Session) (hclosed : .close ∈ calls) :
    (after session calls).Closed := by
  induction calls generalizing session with
  | nil => cases hclosed
  | cons call calls ih =>
    cases List.mem_cons.1 hclosed with
    | inl heq =>
      subst heq
      exact Closed.after ⟨rfl, rfl⟩ calls
    | inr hlater => exact ih _ hlater

/-- Once a store is closed, no pass is started any more. -/
theorem step_read_of_closed (session : Session) (hclosed : .close ∈ calls) (order : RatingOrder) :
    (step (after session calls) (.read order)).1 = .started (.error .closed) := by
  rw [step, (closed_after session hclosed).cursor_eq]

/-- A pass goes on when its next rating is taken, and no other call changes it. -/
theorem getElem?_passes_step {i : Nat} (h : session.passes[i]? = some c) (call : Call) :
    (step session call).2.passes[i]? = some (if call = .next i then c.advance else c) := by
  cases call with
  | read order =>
    have hlt := (List.getElem?_eq_some_iff.1 h).1
    rw [step]
    split
    · rw [start, List.getElem?_append_left hlt, h]
      rfl
    · exact h
  | next pass =>
    rw [step, List.getElem?_modify, h]
    by_cases hpass : pass = i
    · simp [hpass]
    · simp [hpass]
  | ask question => exact h
  | close => exact h

theorem getElem?_passes_after {i : Nat} (h : session.passes[i]? = some c) (calls : List Call) :
    (after session calls).passes[i]? =
      some ⟨c.source, c.upcoming.drop (calls.count (.next i))⟩ := by
  induction calls generalizing session c with
  | nil => exact h
  | cons call calls ih =>
    have hcall := getElem?_passes_step h call
    change (after (step session call).2 calls).passes[i]? = _
    by_cases hnext : call = .next i
    · rw [if_pos hnext, c.advance_eq] at hcall
      rw [ih hcall, List.drop_drop, hnext, List.count_cons_self, Nat.add_comm]
    · rw [if_neg hnext] at hcall
      rw [ih hcall, List.count_cons_of_ne hnext]

/-- However the calls of a pass are mixed with others, they read its ratings one after the
other. -/
theorem step_next_after {i : Nat} (h : session.passes[i]? = some c) (calls : List Call) :
    (step (after session calls) (.next i)).1 = .rating c.rest[calls.count (.next i)]? := by
  rw [step, getElem?_passes_after h, Option.bind_some, RatingCursor.map_fst_next?,
    RatingCursor.rest, RatingCursor.rest, List.map_drop, List.getElem?_drop, Nat.add_zero]

def nextPass (session : Session) : Nat :=
  session.passes.length

/-- As long as no call closes `s`, a pass in this order starts as `c` and then reads the ratings of
`c` one after the other, and it goes on doing so whatever is called later. -/
def Repeats (s : RatingStore) (order : RatingOrder) (c : RatingCursor) : Prop :=
  ∀ before, .close ∉ before →
    (step (after (fresh s) before) (.read order)).1 = .started (.ok c) ∧
    ∀ later, (step (after (fresh s) (before ++ .read order :: later))
        (.next (after (fresh s) before).nextPass)).1 =
      .rating c.rest[later.count (.next (after (fresh s) before).nextPass)]?

theorem repeats_of_cursor (hc : s.cursor order = .ok c) : Repeats s order c := by
  intro before hopen
  have hcursor : (after (fresh s) before).cursor order = .ok c := by
    rw [((keeps_fresh s).after hopen).cursor_eq, hc]
  have hstep : step (after (fresh s) before) (.read order) =
      (.started (.ok c), (after (fresh s) before).start order c) := by
    rw [step, hcursor]
  constructor
  · rw [hstep]
  · intro later
    have hpass :
        ((after (fresh s) before).start order c).passes[(after (fresh s) before).nextPass]? =
          some c :=
      List.getElem?_concat_length
    have hafter : after (fresh s) (before ++ .read order :: later) =
        after ((after (fresh s) before).start order c) later := by
      rw [after, List.foldl_append, List.foldl_cons]
      change after (step (after (fresh s) before) (.read order)).2 later = _
      rw [hstep]
    rw [hafter, step_next_after hpass]

end Session

end PackedRatings
