import PackedRatings.Proofs.Store.Traversals

/-!
# Users of items and items of users

The users of an item are read from the table of items and the items of a user from the table of
users, and both drop what they read twice. In a packed file both show the same pairs, those that
were rated.
-/
namespace PackedRatings

variable {field other : Rating → Int64} {layout : RowLayout} {ratings : List Rating}
  {ask : Int64 → Except Failure (Option Selection)} {keys : Except Failure KeyWindow}

/-- What the ratings that `ask` selects have in the field `other`, each key once. -/
def partnersBy (ask : Int64 → Except Failure (Option Selection)) (other : Rating → Int64)
    (key : Int64) : Except Failure (Option KeyWindow) := do
  return (← ask key).map fun selection => KeyWindow.ofRepeating (selection.ratings.map other)

/-- For each key in `field`, `partners` shows what the ratings with this key have in `other`, and
it shows nothing if there is nothing to `ask` for. -/
structure ListsPartners (field other : Rating → Int64) (ratings : List Rating)
    (ask : Int64 → Except Failure (Option Selection))
    (partners : Int64 → Except Failure (Option KeyWindow)) : Prop where
  none_iff : ∀ key, partners key = .ok none ↔ ask key = .ok none
  absent : ∀ key, partners key = .ok none ↔ key ∉ ratings.map field
  present : ∀ key ∈ ratings.map field, ∃ w, partners key = .ok (some w) ∧
    w.toList.Pairwise (· < ·) ∧ ∀ k, k ∈ w.toList ↔ ∃ r ∈ ratings, field r = key ∧ other r = k

theorem partnersBy_eq_none_iff {key : Int64} :
    partnersBy ask other key = .ok none ↔ ask key = .ok none := by
  rw [partnersBy]
  cases ask key with
  | ok selection? => simp [bind, Except.bind, pure, Except.pure]
  | error failure => simp [bind, Except.bind]

/-- A field that the file keeps can be listed from the answers about another field. -/
theorem AnswersBy.listsPartners (h : AnswersBy field layout ratings ask keys)
    (hother : ∀ r, other (layout.stored r) = other r) :
    ListsPartners field other ratings ask (partnersBy ask other) where
  none_iff := fun _ => partnersBy_eq_none_iff
  absent := fun key => partnersBy_eq_none_iff.trans (h.absent key)
  present := by
    intro key hkey
    obtain ⟨selection, hselection, hratings, -, -⟩ := h.present key hkey
    have hothers : selection.ratings.map other =
        (ratings.filter fun r => field r = key).map other := by
      rw [hratings, List.map_map]
      exact List.map_congr_left fun r _ => hother r
    refine ⟨KeyWindow.ofRepeating (selection.ratings.map other), ?_,
      KeyWindow.toList_pairwise _, ?_⟩
    · rw [partnersBy, hselection]
      rfl
    · intro k
      rw [KeyWindow.mem_toList_ofRepeating, hothers]
      simp [and_assoc]

def Shown (partners : Int64 → Except Failure (Option KeyWindow)) (key k : Int64) : Prop :=
  ∃ w, partners key = .ok (some w) ∧ k ∈ w.toList

theorem ListsPartners.shown_iff {partners : Int64 → Except Failure (Option KeyWindow)}
    (h : ListsPartners field other ratings ask partners) (key k : Int64) :
    Shown partners key k ↔ ∃ r ∈ ratings, field r = key ∧ other r = k := by
  constructor
  · rintro ⟨w, hw, hk⟩
    have hkey : key ∈ ratings.map field := by
      by_contra hkey
      cases hw.symm.trans ((h.absent key).2 hkey)
    obtain ⟨w', hw', -, hmem⟩ := h.present key hkey
    cases hw.symm.trans hw'
    exact (hmem k).1 hk
  · rintro ⟨r, hr, rfl, rfl⟩
    obtain ⟨w, hw, -, hmem⟩ := h.present (field r) (List.mem_map_of_mem hr)
    exact ⟨w, hw, (hmem (other r)).2 ⟨r, hr, rfl, rfl⟩⟩

namespace RatingStore

/-- Users and items are listed as partners of each other where they occur in one rating. -/
structure PairsUp (s : RatingStore) (ratings : List Rating) : Prop where
  users : ListsPartners Rating.item Rating.user ratings s.ratingsOfItem? s.usersOfItem?
  items : ListsPartners Rating.user Rating.item ratings s.ratingsByUser? s.itemsByUser?
  dual : ∀ user item, Shown s.usersOfItem? item user ↔ Shown s.itemsByUser? user item
  rated : ∀ user item,
    Shown s.usersOfItem? item user ↔ ∃ r ∈ ratings, r.user = user ∧ r.item = item

theorem usersOfItem?_eq (s : RatingStore) :
    s.usersOfItem? = partnersBy s.ratingsOfItem? Rating.user :=
  rfl

theorem itemsByUser?_eq (s : RatingStore) :
    s.itemsByUser? = partnersBy s.ratingsByUser? Rating.item :=
  rfl

theorem pairsUp_of_answersBy {s : RatingStore} {users items : Except Failure KeyWindow}
    (husers : AnswersBy Rating.user layout ratings s.ratingsByUser? users)
    (hitems : AnswersBy Rating.item layout ratings s.ratingsOfItem? items) :
    s.PairsUp ratings := by
  have hlistUsers : ListsPartners Rating.item Rating.user ratings s.ratingsOfItem?
      s.usersOfItem? := by
    rw [usersOfItem?_eq]
    exact hitems.listsPartners fun _ => rfl
  have hlistItems : ListsPartners Rating.user Rating.item ratings s.ratingsByUser?
      s.itemsByUser? := by
    rw [itemsByUser?_eq]
    exact husers.listsPartners fun _ => rfl
  have hrated : ∀ user item,
      Shown s.usersOfItem? item user ↔ ∃ r ∈ ratings, r.user = user ∧ r.item = item := by
    intro user item
    rw [hlistUsers.shown_iff]
    simp only [and_comm]
  refine ⟨hlistUsers, hlistItems, ?_, hrated⟩
  intro user item
  rw [hrated, hlistItems.shown_iff]

/-- A packed file shows each rated pair from both sides, however often it was rated, and no other
pairs. -/
theorem load_pairsUp {path : String} {layout : RowLayout} {ratings : List Rating} {p : Packing}
    (hreach : Packing.Reaches path layout ratings p) (verify : Bool) :
    ∃ file s, p.finish = .ok file ∧ load file.path (some file.bytes) verify = .ok s ∧
      s.PairsUp ratings := by
  obtain ⟨hholds, -⟩ := hreach.holds
  obtain ⟨file, f, hfinish, -, hload, -, hshows⟩ := hholds.exists_load verify
  have hrows := hholds.rows hshows
  have husers := answersBy_of_image hrows hshows.users hholds.users
  have hitems := answersBy_of_image hrows hshows.items hholds.items
  exact ⟨file, _, hfinish, hload, pairsUp_of_answersBy husers hitems⟩

def repeatedRatings : List Rating :=
  [⟨7, 3, 0, none⟩, ⟨5, 3, 0, none⟩, ⟨7, 3, .nan, none⟩]

theorem load_pairsUp_repeatedRatings : ∃ p file s w,
    Packing.Reaches "ratings.bin" ⟨false⟩ repeatedRatings p ∧ p.finish = .ok file ∧
      load file.path (some file.bytes) true = .ok s ∧ s.usersOfItem? 3 = .ok (some w) ∧
      w.toList = [5, 7] ∧ Shown s.itemsByUser? 7 3 ∧ s.itemsByUser? 3 = .ok none := by
  obtain ⟨p, hp⟩ : ∃ p, (Packing.start "ratings.bin" ⟨false⟩).addAll repeatedRatings = (p, none) :=
    ⟨_, rfl⟩
  have hreach := Packing.Reaches.start.addAll hp
  obtain ⟨file, s, hfinish, hload, hpairs⟩ := load_pairsUp hreach true
  obtain ⟨w, hw, hascending, hmem⟩ := hpairs.users.present 3 (by decide)
  have htoList : w.toList = [5, 7] := by
    apply eq_of_mem_iff_of_ascending hascending (by decide)
    intro k
    rw [hmem]
    simpa [repeatedRatings, or_comm, eq_comm] using @Or.inr (k = 5) (k = 7)
  have hshown : Shown s.itemsByUser? 7 3 := by
    rw [← hpairs.dual, hpairs.rated]
    exact ⟨⟨7, 3, 0, none⟩, by decide, rfl, rfl⟩
  exact ⟨p, file, s, w, hreach, hfinish, hload, hw, htoList, hshown,
    (hpairs.items.absent 3).2 (by decide)⟩

end RatingStore

end PackedRatings
