import PackedRatings.Proofs.File.PackingCalls

/-!
# Rejected ratings leave no trace

A packing writes to its file while it encodes a row, and the encoder notices a missing timestamp
only after it has written the value. A row that is left unfinished would put the file out of step
with the tables, so the packing marks itself as failed then and does nothing more. This never
happens: the packing asks for the timestamp before it writes. So a packing that rejected ratings
is the same as one to which they were never offered.
-/
namespace PackedRatings

def RowLayout.admits (layout : RowLayout) (rating : Rating) : Bool :=
  rating.timestamp.isSome || !layout.timestamps

theorem RowLayout.admits_iff {layout : RowLayout} {rating : Rating} :
    layout.admits rating = true ↔ layout.Takes rating := by
  simp [admits, Takes]

namespace Packing

/-- Adding the ratings one by one is never refused and leads from one packing to the other. -/
inductive AddsEach : Packing → List Rating → Packing → Prop where
  | nil (p : Packing) : AddsEach p [] p
  | cons {p q r : Packing} {rating : Rating} {ratings : List Rating}
      (first : p.add rating = (q, none)) (rest : AddsEach q ratings r) :
      AddsEach p (rating :: ratings) r

theorem addsEach_iff {p q : Packing} {ratings : List Rating} :
    p.AddsEach ratings q ↔ p.addAll ratings = (q, none) := by
  constructor
  · intro h
    induction h with
    | nil => rfl
    | cons first rest ih => exact addAll_cons_eq_none_iff.2 ⟨_, first, ih⟩
  · intro h
    induction ratings generalizing p with
    | nil =>
      cases h
      exact .nil _
    | cons rating ratings ih =>
      obtain ⟨r, hadd, hrest⟩ := addAll_cons_eq_none_iff.1 h
      exact .cons hadd (ih hrest)

theorem addAll_append {p q : Packing} {before : List Rating} (h : p.addAll before = (q, none))
    (ratings : List Rating) : p.addAll (before ++ ratings) = q.addAll ratings := by
  induction before generalizing p with
  | nil =>
    cases h
    rfl
  | cons rating before ih =>
    obtain ⟨r, hadd, hrest⟩ := addAll_cons_eq_none_iff.1 h
    simp only [List.cons_append, addAll, hadd]
    exact ih hrest

/-- Offering just the ratings that are taken leads to the same packing. -/
theorem addAll_taken (p : Packing) (calls : List Call) :
    p.addAll (p.taken calls) = (p.run calls, none) := by
  induction calls generalizing p with
  | nil => rfl
  | cons call calls ih =>
    rw [taken, addAll_append (p.addAll_accepted call.offered), ← call.make_eq_addAll, ih, run]

/-- A missing timestamp is noticed first, and then a file that is full. -/
theorem checkRating_eq_error {p : Packing} {rating : Rating} {failure : Failure}
    (hintact : p.failed = false) (h : p.checkRating rating = .error failure) :
    (¬ p.layout.Takes rating ∧ failure = Requirement.timestampGiven.failure) ∨
      (p.layout.Takes rating ∧ ¬ p.count < FileHeader.maxCount ∧
        failure = Requirement.roomForRating.failure) := by
  rw [checkRating, checkIntact_eq_ok_iff (u := ()).2 hintact] at h
  by_cases htakes : p.layout.Takes rating
  · have htimestamp : Requirement.timestampGiven.check
        (rating.timestamp.isSome ∨ ¬ p.layout.timestamps) = .ok () := if_pos htakes
    by_cases hroom : p.count < FileHeader.maxCount
    · rw [htimestamp, Requirement.check, if_pos hroom] at h
      cases h
    · rw [htimestamp, Requirement.check, if_neg hroom] at h
      exact .inr ⟨htakes, hroom, (Except.error.inj h).symm⟩
  · have htimestamp : Requirement.timestampGiven.check
        (rating.timestamp.isSome ∨ ¬ p.layout.timestamps) =
          .error Requirement.timestampGiven.failure := if_neg htakes
    rw [htimestamp] at h
    exact .inl ⟨htakes, (Except.error.inj h).symm⟩

/-- With room for all that is offered, ratings are taken up to the first that has no timestamp and
needs one. -/
theorem accepted_eq_takeWhile {p : Packing} {ratings : List Rating} (hintact : p.failed = false)
    (hroom : p.count + ratings.length ≤ FileHeader.maxCount) :
    p.accepted ratings = ratings.takeWhile p.layout.admits := by
  induction ratings generalizing p with
  | nil => rfl
  | cons rating ratings ih =>
    rw [List.length_cons] at hroom
    rcases hadd : p.add rating with ⟨q, _ | failure⟩
    · obtain ⟨⟨-, htakes, -⟩, hq⟩ := add_eq_none_iff.1 hadd
      simp only [accepted, hadd]
      rw [List.takeWhile_cons_of_pos (RowLayout.admits_iff.2 htakes), ih]
      · rw [hq]
      · rw [hq]
        exact hintact
      · rw [hq]
        dsimp only
        omega
    · obtain ⟨-, hcheck⟩ := add_eq_some_iff.1 hadd
      simp only [accepted, hadd]
      obtain ⟨htakes, -⟩ | ⟨-, hfull, -⟩ := checkRating_eq_error hintact hcheck
      · rw [List.takeWhile_cons_of_neg fun h => htakes (RowLayout.admits_iff.1 h)]
      · omega

theorem Holds.taken_eq_flatMap {p : Packing} {before : List Rating} (h : p.Holds before)
    {calls : List Call}
    (hroom : before.length + (calls.flatMap Call.offered).length ≤ FileHeader.maxCount) :
    p.taken calls = calls.flatMap fun call => call.offered.takeWhile p.layout.admits := by
  induction calls generalizing p before with
  | nil => rfl
  | cons call calls ih =>
    rw [List.flatMap_cons, List.length_append] at hroom
    obtain ⟨hholds, -, hlayout⟩ := h.addAll (p.addAll_accepted call.offered)
    have hle := (p.accepted_prefix call.offered).length_le
    rw [taken, List.flatMap_cons, call.make_eq_addAll, ih hholds, hlayout,
      accepted_eq_takeWhile h.intact]
    · rw [h.count]
      omega
    · rw [List.length_append]
      omega

/-- Whatever the packing rejects leaves it as it is: a rating that lacks its timestamp, any other
rating, and of several ratings the first that is rejected and those after it. -/
structure RejectsCleanly (p : Packing) : Prop where
  intact : p.failed = false
  missing : ∀ rating, p.layout.timestamps = true → rating.timestamp = none →
    p.add rating = (p, some Requirement.timestampGiven.failure)
  add : ∀ rating q failure, p.add rating = (q, some failure) →
    q = p ∧ ∃ name message, failure = .invalidArgument name message
  addAll : ∀ ratings q failure, p.addAll ratings = (q, some failure) →
    ∃ before rejected after, ratings = before ++ rejected :: after ∧ p.AddsEach before q ∧
      q.add rejected = (q, some failure)

theorem exists_rejected_of_addAll {p q : Packing} {ratings : List Rating} {failure : Failure}
    (h : p.addAll ratings = (q, some failure)) :
    ∃ before rejected after, ratings = before ++ rejected :: after ∧ p.AddsEach before q ∧
      q.add rejected = (q, some failure) := by
  induction ratings generalizing p with
  | nil => cases h
  | cons rating ratings ih =>
    rcases hadd : p.add rating with ⟨r, _ | failure'⟩
    · simp only [Packing.addAll, hadd] at h
      obtain ⟨before, rejected, after, rfl, hbefore, hrejected⟩ := ih h
      exact ⟨rating :: before, rejected, after, rfl, .cons hadd hbefore, hrejected⟩
    · simp only [Packing.addAll, hadd] at h
      cases h
      obtain ⟨rfl, -⟩ := add_eq_some_iff.1 hadd
      exact ⟨[], rating, ratings, rfl, .nil _, hadd⟩

theorem rejectsCleanly {p : Packing} (hintact : p.failed = false) : p.RejectsCleanly where
  intact := hintact
  missing := by
    intro rating htimestamps hmissing
    have htakes : ¬ p.layout.Takes rating := by
      simp [RowLayout.Takes, htimestamps, hmissing]
    cases hcheck : p.checkRating rating with
    | ok u => exact absurd (checkRating_eq_ok_iff.1 hcheck).2.1 htakes
    | error failure =>
      obtain ⟨-, rfl⟩ | ⟨h, -⟩ := checkRating_eq_error hintact hcheck
      · exact add_of_check_eq_error hcheck
      · exact absurd h htakes
  add := by
    intro rating q failure h
    obtain ⟨rfl, hcheck⟩ := add_eq_some_iff.1 h
    obtain ⟨-, rfl⟩ | ⟨-, -, rfl⟩ := checkRating_eq_error hintact hcheck
    · exact ⟨rfl, _, _, rfl⟩
    · exact ⟨rfl, _, _, rfl⟩
  addAll := fun _ _ _ h => exists_rejected_of_addAll h

/-- However ratings are offered to a new packing, each rejection leaves it as it is, and it ends
up as a packing that was given one by one just the ratings that were taken, with the same file. -/
theorem rejected_ratings_leave_no_trace (path : String) (layout : RowLayout)
    (calls : List Call) :
    ((start path layout).run calls).RejectsCleanly ∧
      ((start path layout).run calls).layout = layout ∧
      (start path layout).AddsEach ((start path layout).taken calls)
        ((start path layout).run calls) ∧
      ((start path layout).run calls).count = ((start path layout).taken calls).length ∧
      (∃ file, ((start path layout).run calls).finish = .ok file ∧
        ∀ p, (start path layout).AddsEach ((start path layout).taken calls) p →
          p.finish = .ok file) ∧
      ((calls.flatMap Call.offered).length ≤ FileHeader.maxCount →
        (start path layout).taken calls =
          calls.flatMap fun call => call.offered.takeWhile layout.admits) := by
  have hstart := holds_start path layout
  have htaken := (start path layout).addAll_taken calls
  obtain ⟨hholds, hlayout⟩ := hstart.run calls
  obtain ⟨file, hfinish, -⟩ := hholds.finish
  refine ⟨rejectsCleanly hholds.intact, hlayout, addsEach_iff.2 htaken, hholds.count,
    ⟨file, hfinish, ?_⟩, ?_⟩
  · intro p hp
    rw [addsEach_iff, htaken] at hp
    cases hp
    exact hfinish
  · intro hroom
    exact hstart.taken_eq_flatMap (by simpa using hroom)

/-- The second of three ratings has no timestamp, so it and the third are not taken. -/
theorem rejected_ratings_leave_no_trace_second_of_three :
    let calls := [.addAll [⟨7, 3, 0, some 30⟩, ⟨5, 3, 0, none⟩, ⟨5, 4, 0, some 10⟩],
      .add ⟨7, 4, 0, some 20⟩]
    (start "ratings.bin" ⟨true⟩).taken calls = [⟨7, 3, 0, some 30⟩, ⟨7, 4, 0, some 20⟩] ∧
      ((start "ratings.bin" ⟨true⟩).run calls).count = 2 ∧
      ∃ file, ((start "ratings.bin" ⟨true⟩).run calls).finish = .ok file := by
  intro calls
  obtain ⟨-, -, -, hcount, ⟨file, hfinish, -⟩, htaken⟩ :=
    rejected_ratings_leave_no_trace "ratings.bin" ⟨true⟩ calls
  have htaken := htaken (by decide)
  exact ⟨htaken, hcount.trans (congrArg List.length htaken), file, hfinish⟩

end Packing

end PackedRatings
