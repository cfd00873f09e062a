import Mathlib.Algebra.Ring.Nat
import PackedRatings.Proofs.Store.CountedPasses
import PackedRatings.Proofs.Store.KeyAttribution

/-!
# Passes count down, each on its own

A `Reading` is a session in which users are read one after the other as well, and in which a pass
is asked how much of it is to come. Every pass over a loaded file gives as many items as the header
declares and knows how many are left, however its calls are mixed with those of other passes. Calls
to one pass are not noticed by anyone else: leaving them out of a run changes no other answer.
-/
namespace PackedRatings

structure Reading where
  session : Session
  /-- The passes over users, in the order in which they were started. -/
  groups : List UserGroups

namespace Reading

inductive PassName where
  | ratings (i : Nat)
  | groups (i : Nat)
  deriving DecidableEq

inductive Call where
  /-- Starts a pass. -/
  | start (opening : Opening)
  /-- Takes the next item of a pass. -/
  | next (pass : PassName)
  /-- Asks how many items of a pass are to come. -/
  | remaining (pass : PassName)
  | ask (question : Question)
  | close
  deriving DecidableEq

inductive Answer where
  | started (pass : PassName)
  | refused (failure : Failure)
  | item (item : Option Item)
  | remaining (count : Option Nat)
  | replied (reply : Reply)
  | closed

variable {s : RatingStore} {r r' : Reading} {pass : PassName} {p : Pass} {opening : Opening}
  {call : Call} {calls : List Call}

def fresh (s : RatingStore) : Reading where
  session := .fresh s
  groups := []

def pass? (r : Reading) : PassName → Option Pass
  | .ratings i => r.session.passes[i]?.map .ratings
  | .groups i => r.groups[i]?.map .groups

def advance (r : Reading) : PassName → Reading
  | .ratings i =>
    { r with session.passes := r.session.passes.modify i RatingCursor.advance }
  | .groups i => { r with groups := r.groups.modify i UserGroups.advance }

def start (r : Reading) : Opening → Answer × Reading
  | .ratings order =>
    match r.session.cursor order with
    | .ok c =>
      (.started (.ratings r.session.passes.length), { r with session := r.session.start order c })
    | .error failure => (.refused failure, r)
  | .groups =>
    match r.session.store.userGroups with
    | .ok g => (.started (.groups r.groups.length), { r with groups := r.groups ++ [g] })
    | .error failure => (.refused failure, r)

def step (r : Reading) : Call → Answer × Reading
  | .start opening => r.start opening
  | .next pass => (.item ((r.pass? pass).bind Pass.next?), r.advance pass)
  | .remaining pass => (.remaining ((r.pass? pass).map Pass.remaining), r)
  | .ask question => (.replied (question.reply r.session.store), r)
  | .close => (.closed, { r with session := (r.session.step .close).2 })

def after (r : Reading) (calls : List Call) : Reading :=
  calls.foldl (fun r call => (r.step call).2) r

def transcript (r : Reading) : List Call → List (Call × Answer)
  | [] => []
  | call :: calls => (call, (r.step call).1) :: (r.step call).2.transcript calls

theorem pass?_advance (name : PassName) : (r.advance name).pass? pass =
    if name = pass then (r.pass? pass).map Pass.advance else r.pass? pass := by
  cases name with
  | ratings i =>
    cases pass with
    | ratings j =>
      rw [pass?, advance, pass?, List.getElem?_modify]
      by_cases hij : i = j
      · cases r.session.passes[j]? <;> simp [hij, Pass.advance]
      · cases r.session.passes[j]? <;> simp [hij]
    | groups j => rfl
  | groups i =>
    cases pass with
    | ratings j => rfl
    | groups j =>
      rw [pass?, advance, pass?, List.getElem?_modify]
      by_cases hij : i = j
      · cases r.groups[j]? <;> simp [hij, Pass.advance]
      · cases r.groups[j]? <;> simp [hij]

theorem pass?_start (h : r.pass? pass = some p) (opening : Opening) :
    (r.start opening).2.pass? pass = some p := by
  have happend : ∀ {α : Type} {l : List α} {i : Nat} {a : α} (b : α), l[i]? = some a →
      (l ++ [b])[i]? = some a := by
    intro α l i a b hget
    rw [List.getElem?_append_left (List.getElem?_eq_some_iff.1 hget).1, hget]
  cases opening with
  | ratings order =>
    rw [start]
    split
    · rename_i c _
      cases pass with
      | ratings i =>
        obtain ⟨cursor, hget, rfl⟩ := Option.map_eq_some_iff.1 h
        exact congrArg (Option.map Pass.ratings) (happend c hget)
      | groups i => exact h
    · exact h
  | groups =>
    rw [start]
    split
    · rename_i g _
      cases pass with
      | ratings i => exact h
      | groups i =>
        obtain ⟨groups, hget, rfl⟩ := Option.map_eq_some_iff.1 h
        exact congrArg (Option.map Pass.groups) (happend g hget)
    · exact h

/-- A pass goes on when its next item is taken, and no other call changes it. -/
theorem pass?_step (h : r.pass? pass = some p) (call : Call) :
    (r.step call).2.pass? pass = some (if call = .next pass then p.advance else p) := by
  cases call with
  | start opening => exact pass?_start h opening
  | next name =>
    rw [step, pass?_advance, h]
    by_cases hname : name = pass
    · simp [hname]
    · simp [hname]
  | remaining name => exact h
  | ask question => exact h
  | close =>
    cases pass with
    | ratings i => exact h
    | groups i => exact h

theorem exists_pass?_after (h : r.pass? pass = some p) (calls : List Call) :
    ∃ q, (r.after calls).pass? pass = some q ∧
      q.items = p.items.drop (calls.count (.next pass)) := by
  induction calls generalizing r p with
  | nil => exact ⟨p, h, rfl⟩
  | cons call calls ih =>
    obtain ⟨q, hq, hitems⟩ := ih (pass?_step h call)
    refine ⟨q, hq, ?_⟩
    rw [hitems]
    by_cases hnext : call = .next pass
    · rw [if_pos hnext, p.items_advance, List.drop_drop, hnext, List.count_cons_self, Nat.add_comm]
    · rw [if_neg hnext, List.count_cons_of_ne hnext]

theorem exists_started (h : r.session.Keeps s) (hp : s.start opening = .ok p) :
    ∃ pass, (r.start opening).1 = .started pass ∧ (r.start opening).2.pass? pass = some p := by
  cases opening with
  | ratings order =>
    obtain ⟨c, hc, hpure⟩ := bind_eq_ok_iff.1 hp
    cases hpure
    rw [start, h.cursor_eq, hc]
    exact ⟨_, rfl, congrArg (Option.map Pass.ratings) List.getElem?_concat_length⟩
  | groups =>
    obtain ⟨g, hg, hpure⟩ := bind_eq_ok_iff.1 hp
    cases hpure
    rw [start, h.store, hg]
    exact ⟨_, rfl, congrArg (Option.map Pass.groups) List.getElem?_concat_length⟩

/-- Only closing ends what is kept. -/
theorem keeps_step (h : r.session.Keeps s) (hopen : call ≠ .close) :
    (r.step call).2.session.Keeps s := by
  cases call with
  | start opening =>
    cases opening with
    | ratings order =>
      rw [step, start, h.cursor_eq]
      split
      · rename_i c hc
        exact h.start hc
      · exact h
    | groups =>
      rw [step, start]
      split
      · exact h
      · exact h
  | next name =>
    cases name with
    | ratings i => exact ⟨h.store, h.byTime?⟩
    | groups i => exact h
  | remaining name => exact h
  | ask question => exact h
  | close => exact absurd rfl hopen

theorem keeps_after (h : r.session.Keeps s) (hopen : .close ∉ calls) :
    (r.after calls).session.Keeps s := by
  induction calls generalizing r with
  | nil => exact h
  | cons call calls ih =>
    rw [List.mem_cons, not_or] at hopen
    exact ih (keeps_step h (Ne.symm hopen.1)) hopen.2

theorem after_append_cons (r : Reading) (before : List Call) (call : Call) (later : List Call) :
    r.after (before ++ call :: later) = ((r.after before).step call).2.after later := by
  rw [after, List.foldl_append, List.foldl_cons]
  rfl

/-- As long as no call closes `s`, this starts a pass that gives `items` one after the other and
then nothing any more, and that tells before each call how many of them are to come. It goes on
doing so whatever is called later. -/
def CountsDown (s : RatingStore) (opening : Opening) (items : List Item) : Prop :=
  ∀ before, .close ∉ before → ∃ pass,
    (((fresh s).after before).step (.start opening)).1 = .started pass ∧
    ∀ later, let r := (fresh s).after (before ++ .start opening :: later)
      (r.step (.next pass)).1 = .item items[later.count (.next pass)]? ∧
      (r.step (.remaining pass)).1 =
        .remaining (some (items.drop (later.count (.next pass))).length)

theorem countsDown_of_start (hp : s.start opening = .ok p) : CountsDown s opening p.items := by
  intro before hopen
  obtain ⟨pass, hstarted, hpass⟩ :=
    exists_started (keeps_after (r := fresh s) (Session.keeps_fresh s) hopen) hp
  refine ⟨pass, hstarted, fun later => ?_⟩
  obtain ⟨q, hq, hitems⟩ := exists_pass?_after hpass later
  rw [after_append_cons]
  change (_ : Answer) = _ ∧ (_ : Answer) = _
  rw [step, step, step, hq, Option.bind_some, Option.map_some, q.next?_eq, q.remaining_eq, hitems,
    List.getElem?_drop, Nat.add_zero]
  exact ⟨rfl, rfl⟩

/-- The lists are of one length and have the same elements at the places with `p`. -/
structure SameAt {α : Type} (p : Nat → Prop) (l l' : List α) : Prop where
  length : l.length = l'.length
  get : ∀ i, p i → l[i]? = l'[i]?

namespace SameAt

variable {α : Type} {p : Nat → Prop} {l l' : List α}

theorem refl (p : Nat → Prop) (l : List α) : SameAt p l l :=
  ⟨rfl, fun _ _ => rfl⟩

theorem concat (h : SameAt p l l') (a : α) : SameAt p (l ++ [a]) (l' ++ [a]) where
  length := by rw [List.length_append, List.length_append, h.length]
  get := by
    intro i hi
    rw [List.getElem?_append, List.getElem?_append, h.length, h.get i hi]

theorem modify (h : SameAt p l l') (i : Nat) (f : α → α) :
    SameAt p (l.modify i f) (l'.modify i f) where
  length := by rw [List.length_modify, List.length_modify, h.length]
  get := by
    intro j hj
    rw [List.getElem?_modify, List.getElem?_modify, h.get j hj]

theorem modify_left (h : SameAt p l l') {i : Nat} (hi : ¬ p i) (f : α → α) :
    SameAt p (l.modify i f) l' where
  length := by rw [List.length_modify, h.length]
  get := by
    intro j hj
    have hne : i ≠ j := by
      rintro rfl
      exact hi hj
    simp [hne, h.get j hj]

end SameAt

/-- The readings are in the same state but for one pass. -/
structure SameBut (pass : PassName) (r r' : Reading) : Prop where
  store : r.session.store = r'.session.store
  byTime? : r.session.byTime? = r'.session.byTime?
  ratings : SameAt (.ratings · ≠ pass) r.session.passes r'.session.passes
  groups : SameAt (.groups · ≠ pass) r.groups r'.groups

namespace SameBut

theorem refl (pass : PassName) (r : Reading) : SameBut pass r r :=
  ⟨rfl, rfl, .refl _ _, .refl _ _⟩

theorem pass?_eq (h : SameBut pass r r') {name : PassName} (hname : name ≠ pass) :
    r.pass? name = r'.pass? name := by
  cases name with
  | ratings i => exact congrArg (Option.map Pass.ratings) (h.ratings.get i hname)
  | groups i => exact congrArg (Option.map Pass.groups) (h.groups.get i hname)

theorem advance (h : SameBut pass r r') (name : PassName) :
    SameBut pass (r.advance name) (r'.advance name) := by
  cases name with
  | ratings i => exact ⟨h.store, h.byTime?, h.ratings.modify i _, h.groups⟩
  | groups i => exact ⟨h.store, h.byTime?, h.ratings, h.groups.modify i _⟩

theorem advance_left (h : SameBut pass r r') : SameBut pass (r.advance pass) r' := by
  cases pass with
  | ratings i =>
    exact ⟨h.store, h.byTime?, h.ratings.modify_left (fun hne => hne rfl) _, h.groups⟩
  | groups i =>
    exact ⟨h.store, h.byTime?, h.ratings, h.groups.modify_left (fun hne => hne rfl) _⟩

theorem cursor_eq (h : SameBut pass r r') (order : RatingOrder) :
    r.session.cursor order = r'.session.cursor order := by
  unfold Session.cursor
  rw [h.store, h.byTime?]

theorem start (h : SameBut pass r r') (opening : Opening) :
    (r.start opening).1 = (r'.start opening).1 ∧
      SameBut pass (r.start opening).2 (r'.start opening).2 := by
  cases opening with
  | ratings order =>
    rw [Reading.start, Reading.start, h.cursor_eq, h.ratings.length]
    split
    · rename_i c _
      refine ⟨rfl, h.store, ?_, h.ratings.concat c, h.groups⟩
      change (if _ then _ else _) = if _ then _ else _
      rw [h.store, h.byTime?]
    · exact ⟨rfl, h⟩
  | groups =>
    rw [Reading.start, Reading.start, h.store, h.groups.length]
    split
    · rename_i g _
      exact ⟨rfl, h.store, h.byTime?, h.ratings, h.groups.concat g⟩
    · exact ⟨rfl, h⟩

end SameBut

def Call.pass? : Call → Option PassName
  | .next pass => some pass
  | .remaining pass => some pass
  | _ => none

/-- A call to another pass, or to the store, is answered alike. -/
theorem SameBut.step (h : SameBut pass r r') (hcall : call.pass? ≠ some pass) :
    (r.step call).1 = (r'.step call).1 ∧ SameBut pass (r.step call).2 (r'.step call).2 := by
  cases call with
  | start opening => exact h.start opening
  | next name =>
    have hname : name ≠ pass := fun heq => hcall (congrArg some heq)
    exact ⟨by rw [Reading.step, Reading.step, h.pass?_eq hname], h.advance name⟩
  | remaining name =>
    have hname : name ≠ pass := fun heq => hcall (congrArg some heq)
    exact ⟨by rw [Reading.step, Reading.step, h.pass?_eq hname], h⟩
  | ask question => exact ⟨by rw [Reading.step, Reading.step, h.store], h⟩
  | close =>
    exact ⟨rfl, congrArg RatingStore.close h.store, rfl, h.ratings, h.groups⟩

/-- A call to the pass changes nothing else. -/
theorem SameBut.step_left (h : SameBut pass r r') (hcall : call.pass? = some pass) :
    SameBut pass (r.step call).2 r' := by
  cases call with
  | next name =>
    obtain rfl : name = pass := Option.some.inj hcall
    exact h.advance_left
  | remaining name => exact h
  | start opening => cases hcall
  | ask question => cases hcall
  | close => cases hcall

theorem SameBut.transcript_eq (h : SameBut pass r r') (calls : List Call) :
    (r.transcript calls).filter (fun entry => entry.1.pass? ≠ some pass) =
      r'.transcript (calls.filter fun call => call.pass? ≠ some pass) := by
  induction calls generalizing r r' with
  | nil => rfl
  | cons call calls ih =>
    rw [transcript]
    by_cases hcall : call.pass? = some pass
    · rw [List.filter_cons_of_neg (by simp [hcall]), List.filter_cons_of_neg (by simp [hcall])]
      exact ih (h.step_left hcall)
    · obtain ⟨hanswer, hsame⟩ := h.step hcall
      rw [List.filter_cons_of_pos (by simp [hcall]), List.filter_cons_of_pos (by simp [hcall]),
        transcript, ih hsame, hanswer]

/-- Leaving out all calls to one pass changes no other answer. -/
theorem transcript_filter (r : Reading) (pass : PassName) (calls : List Call) :
    (r.transcript calls).filter (fun entry => entry.1.pass? ≠ some pass) =
      r.transcript (calls.filter fun call => call.pass? ≠ some pass) :=
  (SameBut.refl pass r).transcript_eq calls

end Reading

/-- The machine and a reading both count down `items` over a store. -/
structure RatingStore.CountsDown (s : RatingStore) (file : ByteArray) (opening : Opening)
    (items : List Item) : Prop where
  machine : ∃ p, s.guardedStart file opening = pure p ∧ CountingPass.CountsDown file p items
  reading : Reading.CountsDown s opening items

namespace RatingStore

variable {s : RatingStore} {f : RatingFile} {file : ByteArray}

theorem exists_countsDown (hfile : s.file? = some f) (h : f.StandsIn file) (opening : Opening) :
    ∃ p, s.start opening = .ok p ∧ s.CountsDown file opening p.items := by
  obtain ⟨p, hp, hmachine⟩ := exists_start_countsDown hfile h opening
  exact ⟨p, hp, hmachine, Reading.countsDown_of_start hp⟩

theorem sum_length_rest (source : RowSection) (table : RunTable source.count) :
    ((⟨source, table.entries⟩ : UserGroups).rest.map fun group => group.2.length).sum =
      table.allRows.length := by
  rw [← table.flatMap_entries, List.length_flatMap, UserGroups.rest, List.map_map]
  rfl

theorem exists_ratings_countsDown (hfile : s.file? = some f) (h : f.StandsIn file)
    (order : RatingOrder) : ∃ c, s.cursor order = .ok c ∧ c.rest.length = f.rows.count ∧
      s.CountsDown file (.ratings order) (c.rest.map .rating) := by
  obtain ⟨p, hp, hcounts⟩ := exists_countsDown hfile h (.ratings order)
  obtain ⟨c, hc, hpure⟩ := bind_eq_ok_iff.1 hp
  cases hpure
  have hstands : ∀ f', s.file? = some f' → f'.StandsIn file := by
    intro f' hf'
    obtain rfl : f = f' := Option.some.inj (hfile.symm.trans hf')
    exact h
  have hlength := length_of_cursor hstands hc
  obtain ⟨f', rows, hf', rfl, -⟩ := exists_file_of_cursor hc
  obtain rfl : f = f' := Option.some.inj (hfile.symm.trans hf')
  refine ⟨_, hc, ?_, hcounts⟩
  rw [RatingCursor.rest, List.length_map]
  exact hlength

theorem exists_groups_countsDown (hfile : s.file? = some f) (h : f.StandsIn file) :
    ∃ g, s.userGroups = .ok g ∧ g.rest.length = f.users.keys.length ∧
      (g.rest.map fun group => group.2.length).sum = f.rows.count ∧
      s.CountsDown file .groups (g.rest.map .group) := by
  obtain ⟨p, hp, hcounts⟩ := exists_countsDown hfile h .groups
  obtain ⟨path, header, file?⟩ := s
  obtain rfl : file? = some f := hfile
  obtain rfl : Pass.groups ⟨f.rows, f.users.entries⟩ = p := Except.ok.inj hp
  refine ⟨_, rfl, ?_, ?_, hcounts⟩
  · simp [UserGroups.rest, RunTable.entries]
  · rw [sum_length_rest, h.userRows]

/-- Each pass over the ratings of a loaded file counts down as many of them as its header says, in
every order, and each pass over its users counts down as many of these, with as many ratings. What
is read from one pass is noticed by no other and by no later call. -/
theorem load_passes_count_down {path : String} {verify : Bool}
    (h : load path (some file) verify = .ok s) :
    (∀ order, ∃ c, s.cursor order = .ok c ∧ c.rest.length = s.header.ratingCount ∧
      s.CountsDown file (.ratings order) (c.rest.map .rating)) ∧
    (∃ g, s.userGroups = .ok g ∧ g.rest.length = s.header.userCount ∧
      (g.rest.map fun group => group.2.length).sum = s.header.ratingCount ∧
      s.CountsDown file .groups (g.rest.map .group)) ∧
    ∀ pass calls,
      ((Reading.fresh s).transcript calls).filter (fun entry => entry.1.pass? ≠ some pass) =
        (Reading.fresh s).transcript (calls.filter fun call => call.pass? ≠ some pass) := by
  obtain ⟨header, f, hparse, rfl⟩ := load_eq_ok_iff.1 h
  obtain ⟨image, himage, -, hbytes, rfl, hshows⟩ := RatingFile.parse_eq_ok hparse
  have hstands := hshows.standsIn himage hbytes
  have hratings : f.rows.count = image.header.ratingCount := hshows.count
  have husers : f.users.keys.length = image.header.userCount := by
    rw [← RunTable.length_image, hshows.users]
    rfl
  refine ⟨fun order => ?_, ?_, Reading.transcript_filter _⟩
  · rw [← hratings]
    exact exists_ratings_countsDown rfl hstands order
  · rw [← hratings, ← husers]
    exact exists_groups_countsDown rfl hstands

/-- The tables of this file list one row twice and the other not at all, and one of the items has
no row. -/
theorem load_passes_count_down_repeatedRows :
    let file := (twoRatings [(1, [0, 0])] [(1, [1, 1]), (2, [])]).bytes.toByteArray
    ∃ s c g, load "ratings.bin" (some file) false = .ok s ∧
      s.cursor .item = .ok c ∧ c.rest.map Rating.user = [2, 2] ∧
      s.CountsDown file (.ratings .item) (c.rest.map .rating) ∧
      s.userGroups = .ok g ∧ (g.rest.map fun group => group.2.length) = [2] ∧
      s.CountsDown file .groups (g.rest.map .group) := by
  intro file
  have hread : (do
      let s ← load "ratings.bin" (some file) false
      let c ← s.cursor .item
      let g ← s.userGroups
      return (c.rest.map Rating.user, g.rest.map fun group : Int64 × Selection =>
        group.2.length)).toOption =
        some ([2, 2], [2]) := by
    decide +kernel
  simp only [toOption_eq_some_iff, bind_eq_ok_iff, pure_eq_ok_iff, Prod.mk.injEq] at hread
  obtain ⟨s, hload, c, hcursor, g, hgroups, husers, hlengths⟩ := hread
  obtain ⟨hratings, ⟨g', hgroups', -, -, hgroup⟩, -⟩ := load_passes_count_down hload
  obtain ⟨c', hcursor', -, hrating⟩ := hratings .item
  obtain rfl : c = c' := Except.ok.inj (hcursor.symm.trans hcursor')
  obtain rfl : g = g' := Except.ok.inj (hgroups.symm.trans hgroups')
  exact ⟨s, c, g, hload, hcursor, husers, hrating, hgroups, hlengths, hgroup⟩

end RatingStore

end PackedRatings
